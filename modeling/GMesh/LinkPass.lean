import GMesh.Resolver

namespace GMesh

abbrev EdgeGroup := EdgeKind × SourceTier

variable (placeholder : String) (g : EdgeGroup) (e : EdgeRow)

namespace EdgeRow

def belongsTo : Bool :=
  decide (e.toId = placeholder ∨ e.linkedFrom = some placeholder)

def group : EdgeGroup := (e.kind, e.source)

def repoint (target : String) (e : EdgeRow) : EdgeRow :=
  if e.belongsTo placeholder ∧ e.group = g ∧ e.toId ≠ target then
    { e with toId := target, resolved := true, linkedFrom := some placeholder }
  else e

def unlink : EdgeRow :=
  if e.linkedFrom = some placeholder ∧ e.group = g then
    { e with toId := placeholder, resolved := false, linkedFrom := none }
  else e

theorem repoint_id (target : String) (e : EdgeRow) : (e.repoint placeholder g target).id = e.id := by
  unfold repoint
  split <;> rfl

theorem unlink_id : (e.unlink placeholder g).id = e.id := by
  unfold unlink
  split <;> rfl

end EdgeRow

/-- One placeholder's pass: the edges, how many were moved, and its candidate lists, with visibility and without. -/
structure PlaceholderPass where
  edges : EdgeTable
  linkedEdges : Nat
  checked : Option (List Candidate) := none
  admitted : Option (List Candidate) := none

variable (pass : PlaceholderPass) (engineAnswer : Bool)

namespace PlaceholderPass

def slot : Option (List Candidate) :=
  if engineAnswer then pass.admitted else pass.checked

def setSlot (candidates : List Candidate) : PlaceholderPass :=
  if engineAnswer then { pass with admitted := some candidates } else { pass with checked := some candidates }

def move (placeholder : String) (g : EdgeGroup) : Option String → PlaceholderPass
  | some target =>
    { pass with
      edges := pass.edges.update (EdgeRow.repoint placeholder g target) (EdgeRow.repoint_id placeholder g target)
      linkedEdges := pass.linkedEdges + (pass.edges.rows.filter (fun e =>
        decide (e.belongsTo placeholder ∧ e.group = g ∧ e.toId ≠ target))).length }
  | none =>
    { pass with edges := pass.edges.update (EdgeRow.unlink placeholder g) (EdgeRow.unlink_id placeholder g) }

end PlaceholderPass

def edgeGroups (edges : EdgeTable) (placeholder : String) : List EdgeGroup :=
  ((edges.rows.filter (EdgeRow.belongsTo placeholder)).map EdgeRow.group).dedup

namespace Index

variable (ix : Index)

def linkGroup (p : Placeholder) (pass : PlaceholderPass) (g : EdgeGroup) : StateM Caches PlaceholderPass :=
  let engineAnswer := admitsUnseen g.1 g.2 p.key
  match requiredTargetKind g.1 engineAnswer with
  | none => pure pass
  | some required => do
    let candidates ← match pass.slot engineAnswer with
      | some known => pure known
      | none => Resolver.resolve ix p { p.requester with engineAnswer }
    let target ← Resolver.choose ix p.key required candidates
    pure ((pass.setSlot engineAnswer candidates).move p.id g target)

def linkPlaceholder (edges : EdgeTable × Nat) (p : Placeholder) : StateM Caches (EdgeTable × Nat) := do
  let pass ← (edgeGroups edges.1 p.id).foldlM (ix.linkGroup p) { edges := edges.1, linkedEdges := edges.2 }
  pure (pass.edges, pass.linkedEdges)

end Index

variable (s : Store) (rules : LinkRules)

namespace Store

def placeholderOf (n : NodeRow) : Option Placeholder :=
  (s.targets.find? n.id).map fun t =>
    { id := n.id
      scope := .fromRow t.scopeKind t.scope n.language
      key := .fromRow t.keyKind t.key
      keyPath := t.keyPath
      requester :=
        { file := t.fromFile
          container := t.fromContainer.filter (fun key => decide (key ≠ ""))
          language := n.language } }

def link (placeholders : List Placeholder) : Store × Nat :=
  let ix : Index := { store := s, rules }
  let (edges, linkedEdges) := (placeholders.foldlM ix.linkPlaceholder (s.edges, 0) {}).1
  ({ s with edges }, linkedEdges)

def placeholders : List Placeholder := (s.nodes.rows.filter isPlaceholder).filterMap s.placeholderOf

def linkAll : Store × Nat := s.link rules s.placeholders

end Store

end GMesh
