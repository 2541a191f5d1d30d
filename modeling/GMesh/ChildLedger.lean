import GMesh.AttachSpec
import GMesh.IndexHistory
import GMesh.PluginRows
import GMesh.SwapNodes

namespace GMesh

open KeyedTable DeclaredRecord

namespace KeyedTable

section Rows

variable {ρ β : Type} [DecidableEq ρ]

theorem mem_insertIgnore_row {t : KeyedTable (fun r : ρ => r)} {r s : ρ} : s ∈ t.insertIgnore r ↔ s ∈ t ∨ s = r := by
  rw [mem_iff_find?, find?_insertIgnore, mem_iff_find?]
  by_cases hrs : r = s
  · subst hrs
    cases hc : t.contains r with
    | false => simp
    | true =>
      obtain ⟨r', hr', rfl⟩ := contains_iff.mp hc
      simp [find?_key hr']
  · simp [hrs, Ne.symm hrs]

theorem mem_foldl_insertIgnore_row (g : β → ρ) (xs : List β) (t : KeyedTable (fun r : ρ => r)) {s : ρ} :
    s ∈ xs.foldl (fun t x => t.insertIgnore (g x)) t ↔ s ∈ t ∨ ∃ x ∈ xs, g x = s :=
  foldl_adds (P := fun t s => s ∈ t) (fun _ _ _ => by rw [mem_insertIgnore_row, eq_comm]) xs t s

end Rows

section Insert

variable {κ ρ β : Type} [DecidableEq κ] {key : ρ → κ}

theorem mem_of_insert? {t u : KeyedTable key} {r : ρ} (h : t.insert? r = some u) {s : ρ} : s ∈ u ↔ s ∈ t ∨ s = r := by
  unfold insert? at h
  split at h
  next => simp at h
  next hc =>
    cases h
    have hn := contains_eq_false_iff.mp (Bool.eq_false_iff.mpr hc)
    rw [mem_put]
    constructor
    · intro hs
      rcases hs with rfl | hs
      · exact .inr rfl
      · exact .inl hs.1
    · intro hs
      rcases hs with hs | rfl
      · exact .inr ⟨hs, hn s hs⟩
      · exact .inl rfl

theorem mem_of_foldlM_insert? (g : β → ρ) {xs : List β} {t u : KeyedTable key}
    (h : xs.foldlM (fun t x => t.insert? (g x)) t = some u) {s : ρ} :
    s ∈ u ↔ s ∈ t ∨ ∃ x ∈ xs, g x = s := by
  induction xs generalizing t with
  | nil =>
    cases h
    simp
  | cons _ _ ih =>
    obtain ⟨mid, hmid, hrest⟩ := Option.bind_eq_some_iff.mp h
    rw [ih hrest, mem_of_insert? hmid]
    simp only [List.mem_cons, exists_eq_or_imp]
    rw [or_assoc, eq_comm]

end Insert

theorem contains_erase {κ ρ : Type} [DecidableEq κ] {key : ρ → κ} (t : KeyedTable key) (k j : κ) :
    (t.erase k).contains j = (t.contains j && decide (j ≠ k)) := by
  unfold contains
  by_cases h : j = k
  · simp [h]
  · simp [h]

theorem contains_put {κ ρ : Type} [DecidableEq κ] {key : ρ → κ} (t : KeyedTable key) (r : ρ) (j : κ) :
    (t.put r).contains j = (t.contains j || decide (key r = j)) := by
  unfold contains
  by_cases h : key r = j
  · simp [h]
  · simp [h]

end KeyedTable

inductive ChildRow
  | declaration (r : DeclarationRow)
  | target (r : TargetRow)
  | alsoScope (r : AlsoScopeRow)
  | suffix (r : SuffixRow)
  | untypedCall (r : UntypedCallRow)
  deriving DecidableEq, Repr

def ChildRow.nodeId : ChildRow → String
  | .declaration r => r.nodeId
  | .target r => r.nodeId
  | .alsoScope r => r.nodeId
  | .suffix r => r.nodeId
  | .untypedCall r => r.nodeId

def ChildRow.isUntypedCall : ChildRow → Bool
  | .untypedCall _ => true
  | _ => false

def IndexFile.HasRow (f : IndexFile) : ChildRow → Prop
  | .declaration r => r ∈ f.declarations
  | .target r => r ∈ f.targets
  | .alsoScope r => r ∈ f.alsoScopes
  | .suffix r => r ∈ f.suffixes
  | .untypedCall r => r ∈ f.untypedCalls

namespace DeclaredRecord

def untypedRows (n : DeclaredRecord) : List ChildRow := n.untypedCalls.map (fun name => .untypedCall ⟨name, n.id⟩)

def childRows (n : DeclaredRecord) : List ChildRow :=
  n.declarations.map (fun c => .declaration (declarationRow n.id c)) ++
    (n.target.toList.map (fun t => .target (Store.targetRow n.toNodeRecord t)) ++
    (n.target.toList.flatMap (fun t => t.alsoScopes.map (fun scope => .alsoScope ⟨n.id, scope⟩)) ++
    ((QualifiedPath.suffixes n.qualifiedPath n.aliasPaths).map (fun suffix => .suffix ⟨suffix, n.id⟩) ++
    n.untypedRows)))

theorem childRows_nodeId {n : DeclaredRecord} {r : ChildRow} (h : r ∈ n.childRows) : r.nodeId = n.id := by
  simp only [childRows, untypedRows, List.mem_append, List.mem_map, List.mem_flatMap] at h
  rcases h with ⟨c, _, rfl⟩ | ⟨t, _, rfl⟩ | ⟨t, _, scope, _, rfl⟩ | ⟨suffix, _, rfl⟩ | ⟨name, _, rfl⟩ <;> rfl

end DeclaredRecord

namespace Store

variable {s : Store} {n : NodeRecord}

theorem mem_replaceUntypedCalls {r : UntypedCallRow} :
    r ∈ (s.replaceUntypedCalls n).untypedCalls ↔ (r ∈ s.untypedCalls ∧ r.nodeId ≠ n.id) ∨
      ∃ name ∈ n.untypedCalls, ⟨name, n.id⟩ = r := by
  have h := mem_foldl_insertIgnore_row (s := r) (fun name => (⟨name, n.id⟩ : UntypedCallRow))
    n.untypedCalls (s.untypedCalls.filter (fun r => decide (r.nodeId ≠ n.id)))
  rw [mem_filter, decide_eq_true_iff] at h
  exact h

theorem mem_replaceSuffixes {r : SuffixRow} :
    r ∈ (s.replaceSuffixes n).suffixes ↔ (r ∈ s.suffixes ∧ r.nodeId ≠ n.id) ∨
      ∃ suffix ∈ QualifiedPath.suffixes n.qualifiedPath n.aliasPaths, ⟨suffix, n.id⟩ = r := by
  have h := mem_foldl_insertIgnore_row (s := r) (fun suffix => (⟨suffix, n.id⟩ : SuffixRow))
    (QualifiedPath.suffixes n.qualifiedPath n.aliasPaths) (s.suffixes.filter (fun r => decide (r.nodeId ≠ n.id)))
  rw [mem_filter, decide_eq_true_iff] at h
  exact h

theorem mem_replaceTarget_targets {r : TargetRow} :
    r ∈ (s.replaceTarget n).targets ↔ (r ∈ s.targets ∧ r.nodeId ≠ n.id) ∨ ∃ t ∈ n.target.toList, targetRow n t = r := by
  unfold replaceTarget
  split
  next ht => simp [ht, mem_erase]
  next t ht =>
    have hid : (targetRow n t).nodeId = n.id := rfl
    rw [mem_put, mem_erase, hid, ht]
    simp only [Option.toList_some, List.mem_singleton, exists_eq_left]
    rw [and_assoc, and_self, or_comm, eq_comm]

theorem mem_replaceTarget_alsoScopes {r : AlsoScopeRow} :
    r ∈ (s.replaceTarget n).alsoScopes ↔ (r ∈ s.alsoScopes ∧ r.nodeId ≠ n.id) ∨
      ∃ t ∈ n.target.toList, ∃ scope ∈ t.alsoScopes, ⟨n.id, scope⟩ = r := by
  unfold replaceTarget
  split
  next ht => simp [ht, mem_filter]
  next t ht =>
    have h := mem_foldl_insertIgnore_row (s := r) (fun scope => (⟨n.id, scope⟩ : AlsoScopeRow))
      t.alsoScopes (s.alsoScopes.filter (fun r => decide (r.nodeId ≠ n.id)))
    rw [mem_filter, decide_eq_true_iff] at h
    simp only [ht, Option.toList_some, List.mem_singleton, exists_eq_left]
    exact h

theorem replaceTarget_untypedCalls (s : Store) (n : NodeRecord) :
    (s.replaceTarget n).untypedCalls = s.untypedCalls := by
  unfold replaceTarget
  split <;> rfl

theorem replaceTarget_suffixes (s : Store) (n : NodeRecord) : (s.replaceTarget n).suffixes = s.suffixes := by
  unfold replaceTarget
  split <;> rfl

structure SameChildren (s t : Store) : Prop where
  targets : t.targets = s.targets
  alsoScopes : t.alsoScopes = s.alsoScopes
  suffixes : t.suffixes = s.suffixes
  untypedCalls : t.untypedCalls = s.untypedCalls

theorem SameChildren.trans {t u : Store} (h : s.SameChildren t) (h' : t.SameChildren u) : s.SameChildren u :=
  ⟨h'.targets.trans h.targets, h'.alsoScopes.trans h.alsoScopes, h'.suffixes.trans h.suffixes,
    h'.untypedCalls.trans h.untypedCalls⟩

theorem sameChildren_foldl {β : Type} (step : Store → β → Store) (hstep : ∀ s x, SameChildren s (step s x))
    (xs : List β) (s : Store) : s.SameChildren (xs.foldl step s) := by
  induction xs generalizing s with
  | nil => exact ⟨rfl, rfl, rfl, rfl⟩
  | cons x _ ih => exact (hstep s x).trans (ih (step s x))

end Store

namespace IndexFile

structure SameNodes (f g : IndexFile) : Prop where
  nodes : ∀ x, g.nodes.contains x = f.nodes.contains x
  rows : ∀ r, g.HasRow r ↔ f.HasRow r

structure Drops (f g : IndexFile) (id : String) : Prop where
  nodes : ∀ x, g.nodes.contains x = (f.nodes.contains x && decide (x ≠ id))
  rows : ∀ r, g.HasRow r ↔ f.HasRow r ∧ r.nodeId ≠ id

/-- One node is written, and its rows are replaced by those of its record. -/
structure Writes (f g : IndexFile) (n : DeclaredRecord) : Prop where
  nodes : ∀ x, g.nodes.contains x = (f.nodes.contains x || decide (n.id = x))
  rows : ∀ r, g.HasRow r ↔ (f.HasRow r ∧ r.nodeId ≠ n.id) ∨ r ∈ n.childRows

variable {f : IndexFile}

theorem hasRow_of_sameChildren {s : Store} (h : f.toStore.SameChildren s) (r : ChildRow) :
    { f with toStore := s }.HasRow r ↔ f.HasRow r := by
  cases r with
  | declaration r => exact Iff.rfl
  | target r => simp only [HasRow, h.targets]
  | alsoScope r => simp only [HasRow, h.alsoScopes]
  | suffix r => simp only [HasRow, h.suffixes]
  | untypedCall r => simp only [HasRow, h.untypedCalls]

theorem sameNodes_of_eq {s : Store} (hn : s.nodes = f.nodes) (h : f.toStore.SameChildren s) :
    SameNodes f { f with toStore := s } where
  nodes := fun x => by rw [hn]
  rows := hasRow_of_sameChildren h

theorem drops_deleteNode (f : IndexFile) (id : String) : Drops f (f.deleteNode id) id where
  nodes := contains_erase f.nodes id
  rows := by
    intro r
    cases r with
    | declaration r => simp [HasRow, deleteNode, DeclarationTable.without, mem_filter, ChildRow.nodeId]
    | target r => exact mem_erase
    | alsoScope | suffix | untypedCall => simp [HasRow, deleteNode, Store.deleteNode, mem_filter, ChildRow.nodeId]

theorem drops_deleteNamed (d : Diff) (f : IndexFile) (id : String) : Drops f (f.deleteNamed d id) id := by
  have hdrop := drops_deleteNode f id
  unfold deleteNamed Store.deleteNamed
  split
  next => exact hdrop
  next => exact ⟨hdrop.nodes, hdrop.rows⟩

theorem drops_recount {ids : ContainerIds} {key : ContainerKey} (h : f.definesCount (ids.containerId key) = 0) :
    Drops f (f.recount ids key) (ids.containerId key) := by
  have hdrop := drops_deleteNode f (ids.containerId key)
  unfold recount Store.recount
  simp only [h, if_true]
  exact ⟨hdrop.nodes, hdrop.rows⟩

theorem sameNodes_recount {ids : ContainerIds} {key : ContainerKey} (h : f.definesCount (ids.containerId key) ≠ 0) :
    SameNodes f (f.recount ids key) := by
  unfold recount Store.recount
  simp only [h, if_false]
  exact sameNodes_of_eq rfl ⟨rfl, rfl, rfl, rfl⟩

/-- A written node's child rows are replaced by those of its record. -/
theorem writes_upsertNode {g : IndexFile} {n : DeclaredRecord} (h : f.upsertNode n = some g) : Writes f g n := by
  obtain ⟨declarations, hd, rfl⟩ := Option.map_eq_some_iff.mp h
  constructor
  · intro x
    rw [Store.upsertNode_nodes, contains_put]
  · intro r
    cases r with
    | declaration r =>
      have hmem := mem_of_foldlM_insert? (s := r) (declarationRow n.id) hd
      rw [DeclarationTable.without, mem_filter, decide_eq_true_iff] at hmem
      show r ∈ declarations ↔ _
      rw [hmem]
      simp [childRows, untypedRows, HasRow, ChildRow.nodeId]
    | target r =>
      show r ∈ (Store.replaceTarget _ n.toNodeRecord).targets ↔ _
      rw [Store.mem_replaceTarget_targets]
      simp [childRows, untypedRows, HasRow, ChildRow.nodeId, Store.replaceUntypedCalls, Store.replaceSuffixes]
    | alsoScope r =>
      show r ∈ (Store.replaceTarget _ n.toNodeRecord).alsoScopes ↔ _
      rw [Store.mem_replaceTarget_alsoScopes]
      simp [childRows, untypedRows, HasRow, ChildRow.nodeId, Store.replaceUntypedCalls, Store.replaceSuffixes]
    | suffix r =>
      show r ∈ (Store.replaceTarget _ n.toNodeRecord).suffixes ↔ _
      rw [Store.replaceTarget_suffixes]
      show r ∈ (Store.replaceSuffixes _ n.toNodeRecord).suffixes ↔ _
      rw [Store.mem_replaceSuffixes]
      simp [childRows, untypedRows, HasRow, ChildRow.nodeId]
    | untypedCall r =>
      show r ∈ (Store.replaceTarget _ n.toNodeRecord).untypedCalls ↔ _
      rw [Store.replaceTarget_untypedCalls, Store.mem_replaceUntypedCalls]
      simp [childRows, untypedRows, HasRow, ChildRow.nodeId, Store.replaceSuffixes]

end IndexFile

abbrev RowLedger := String → Option (List ChildRow)

namespace RowLedger

def drop (L : RowLedger) (id : String) : RowLedger := fun x => if x = id then none else L x

def write (L : RowLedger) (n : DeclaredRecord) : RowLedger := fun x => if x = n.id then some n.childRows else L x

def writeDiff (L : RowLedger) (d : IndexDiff) : RowLedger :=
  d.upsertNodes.foldl write (d.deleteNodeIds.foldl drop L)

def setUntypedCalls (L : RowLedger) (n : DeclaredRecord) : RowLedger := fun x =>
  if x = n.id then (L x).map (fun rows => rows.filter (fun r => !r.isUntypedCall) ++ n.untypedRows) else L x

/-- The entries of the nodes a file has. A node that core made itself has no rows. -/
def restrict (L : RowLedger) (f : IndexFile) : RowLedger := fun x =>
  if f.nodes.contains x then some ((L x).getD []) else none

theorem restrict_congr {L : RowLedger} {f g : IndexFile} (h : g.nodes = f.nodes) : L.restrict g = L.restrict f := by
  funext x
  rw [restrict, restrict, h]

end RowLedger

/-- The ledger after a write. Links, sweeps and failed writes leave it. -/
def IndexOp.ledger (ids : ContainerIds) (rules : LinkRules) (f : IndexFile) (L : RowLedger) (o : IndexOp) : RowLedger :=
  match o with
  | applyDiff d =>
    if (f.applyDiff ids d).isSome then (L.writeDiff d).restrict (o.run ids rules f) else L
  | applyFileDiff path scope d =>
    if (f.applyDiff ids (f.widen path scope d)).isSome then
      (L.writeDiff (f.widen path scope d)).restrict (o.run ids rules f)
    else L
  | applySemanticDiff d =>
    if (f.applySemanticDiff ids d).isSome then
      (f.keptPart d).foldl RowLedger.setUntypedCalls
        ((L.writeDiff (f.insertedPart d)).restrict (o.run ids rules f))
    else L
  | _ => L.restrict (o.run ids rules f)

def RowLedger.swap (live staging : RowLedger) (plan : Plan) : RowLedger := fun x =>
  if x ∈ plan.upsertNodes then staging x else if x ∈ plan.deleteNodes then none else live x

def History.ledger (ids : ContainerIds) (rules : LinkRules) : History → RowLedger
  | empty => fun _ => none
  | op before o => o.ledger ids rules (before.file ids rules) (before.ledger ids rules)
  | swap before staging plan =>
    RowLedger.restrict (RowLedger.swap (before.ledger ids rules) (staging.ledger ids rules) plan)
      ((swap before staging plan).file ids rules)

structure IndexFile.Shows (f : IndexFile) (L : RowLedger) : Prop where
  nodes : ∀ x, f.nodes.contains x = (L x).isSome
  rows : ∀ r, f.HasRow r ↔ ∃ rows, L r.nodeId = some rows ∧ r ∈ rows

namespace IndexFile

variable {f g h : IndexFile} {L : RowLedger}

namespace Shows

variable (hs : f.Shows L)

include hs

theorem owned {r : ChildRow} (hr : f.HasRow r) : f.nodes.contains r.nodeId := by
  obtain ⟨rows, hL, _⟩ := (hs.rows r).mp hr
  rw [hs.nodes, hL]
  rfl

theorem same (hg : SameNodes f g) : g.Shows L where
  nodes := fun x => (hg.nodes x).trans (hs.nodes x)
  rows := fun r => (hg.rows r).trans (hs.rows r)

theorem drop {id : String} (hg : Drops f g id) : g.Shows (L.drop id) where
  nodes := by
    intro x
    rw [hg.nodes, hs.nodes, RowLedger.drop]
    by_cases hx : x = id
    · simp [hx]
    · simp [hx]
  rows := by
    intro r
    rw [hg.rows, hs.rows, RowLedger.drop]
    by_cases hx : r.nodeId = id
    · simp [hx]
    · simp [hx]

theorem write {n : DeclaredRecord} (hg : Writes f g n) : g.Shows (L.write n) where
  nodes := by
    intro x
    rw [hg.nodes, hs.nodes, RowLedger.write]
    by_cases hx : x = n.id
    · simp [hx]
    · simp [hx, Ne.symm hx]
  rows := by
    intro r
    rw [hg.rows, hs.rows, RowLedger.write]
    by_cases hx : r.nodeId = n.id
    · simp [hx]
    · have hnot : r ∉ n.childRows := fun hr => hx (DeclaredRecord.childRows_nodeId hr)
      simp [hx, hnot]

omit hs in
theorem foldl_deleteNamed (d : Diff) (ids : List String) (hs : f.Shows L) :
    (ids.foldl (deleteNamed d) f).Shows (ids.foldl RowLedger.drop L) := by
  induction ids generalizing f L with
  | nil => exact hs
  | cons id _ ih => exact ih (hs.drop (drops_deleteNamed d f id))

theorem foldlM_upsertNode {ns : List DeclaredRecord} (hg : ns.foldlM upsertNode f = some g) :
    g.Shows (ns.foldl RowLedger.write L) := by
  induction ns generalizing f L with
  | nil =>
    cases hg
    exact hs
  | cons _ _ ih =>
    obtain ⟨mid, hmid, hrest⟩ := Option.bind_eq_some_iff.mp hg
    exact ih (hs.write (writes_upsertNode hmid)) hrest

theorem writeRows {d : IndexDiff} (hg : f.writeRows d = some g) : g.Shows (L.writeDiff d) := by
  obtain ⟨mid, hmid, rfl⟩ := Option.map_eq_some_iff.mp hg
  have hedges : SameNodes f { f with toStore := d.deleteEdgeIds.foldl Store.deleteEdge f.toStore } :=
    sameNodes_of_eq (Store.foldl_deleteEdge_nodes d.deleteEdgeIds f.toStore)
      (Store.sameChildren_foldl Store.deleteEdge (fun _ _ => ⟨rfl, rfl, rfl, rfl⟩) _ _)
  have hnodes := ((hs.same hedges).foldl_deleteNamed d.toDiff d.deleteNodeIds).foldlM_upsertNode hmid
  exact hnodes.same (sameNodes_of_eq (Store.foldl_upsertEdge_nodes d.upsertEdges mid.toStore)
    (Store.sameChildren_foldl Store.upsertEdge (fun _ _ => ⟨rfl, rfl, rfl, rfl⟩) _ _))

end Shows

structure Grows (f g : IndexFile) : Prop where
  nodes : ∀ x, f.nodes.contains x = true → g.nodes.contains x = true
  rows : ∀ r, g.HasRow r ↔ f.HasRow r

structure Sheds (f g : IndexFile) : Prop where
  nodes : ∀ x, g.nodes.contains x = true → f.nodes.contains x = true
  rows : ∀ r, g.HasRow r ↔ f.HasRow r ∧ g.nodes.contains r.nodeId = true

theorem Sheds.trans (hfg : Sheds f g) (hgh : Sheds g h) : Sheds f h where
  nodes := fun x hx => hfg.nodes x (hgh.nodes x hx)
  rows := by
    intro r
    rw [hgh.rows, hfg.rows]
    constructor
    · exact fun hr => ⟨hr.1.1, hr.2⟩
    · exact fun hr => ⟨⟨hr.1, hgh.nodes _ hr.2⟩, hr.2⟩

def Owned (f : IndexFile) : Prop := ∀ r, f.HasRow r → f.nodes.contains r.nodeId = true

theorem Sheds.owned (hfg : Sheds f g) : g.Owned := fun r hr => ((hfg.rows r).mp hr).2

theorem SameNodes.sheds (hg : SameNodes f g) (ho : f.Owned) : Sheds f g where
  nodes := fun x hx => (hg.nodes x).symm.trans hx
  rows := by
    intro r
    rw [hg.rows, hg.nodes]
    exact ⟨fun hr => ⟨hr, ho r hr⟩, fun hr => hr.1⟩

theorem Drops.sheds {id : String} (hg : Drops f g id) (ho : f.Owned) : Sheds f g where
  nodes := by
    intro x hx
    rw [hg.nodes, Bool.and_eq_true] at hx
    exact hx.1
  rows := by
    intro r
    rw [hg.rows, hg.nodes, Bool.and_eq_true, decide_eq_true_iff]
    exact ⟨fun hr => ⟨hr.1, ho r hr.1, hr.2⟩, fun hr => ⟨hr.1, hr.2.2⟩⟩

theorem sheds_foldl {β : Type} {step : IndexFile → β → IndexFile} (hstep : ∀ f x, f.Owned → Sheds f (step f x))
    (xs : List β) (f : IndexFile) (ho : f.Owned) : Sheds f (xs.foldl step f) := by
  induction xs generalizing f with
  | nil => exact SameNodes.sheds ⟨fun _ => rfl, fun _ => Iff.rfl⟩ ho
  | cons x _ ih => exact (hstep f x ho).trans (ih (step f x) (hstep f x ho).owned)

theorem Shows.restrict (hs : f.Shows L) (hg : Grows f g) (hh : Sheds g h) : h.Shows (L.restrict h) where
  nodes := by
    intro x
    rw [RowLedger.restrict]
    split
    next hx => simp [hx]
    next hx => simp [hx]
  rows := by
    intro r
    rw [hh.rows, hg.rows, hs.rows, RowLedger.restrict]
    split
    next hx =>
      cases hL : L r.nodeId with
      | none => simp
      | some rows => simp [hx]
    next hx => simp [hx]

theorem Shows.shed (hs : f.Shows L) (hg : Sheds f g) : g.Shows (L.restrict g) :=
  hs.restrict ⟨fun _ hx => hx, fun _ => Iff.rfl⟩ hg

end IndexFile

variable {ids : ContainerIds} {rules : LinkRules} {f g : IndexFile} {L : RowLedger} {d : IndexDiff}

namespace Store

theorem detach_sameChildren (ids : ContainerIds) (s : Store) (d : Diff) :
    (s.detach ids d).1.nodes = s.nodes ∧ s.SameChildren (s.detach ids d).1 :=
  detach_keeps (P := fun t : Store => t.nodes = s.nodes ∧ s.SameChildren t) ⟨rfl, rfl, rfl, rfl, rfl⟩
    fun _ ht _ _ => ⟨ht.1, ht.2.trans ⟨rfl, rfl, rfl, rfl⟩⟩

theorem applyParents_nodes (s : Store) (parents : List (ContainerKey × Option String)) :
    (s.applyParents parents).nodes = s.nodes := by
  unfold applyParents
  split <;> rfl

theorem applyParents_sameChildren (s : Store) (parents : List (ContainerKey × Option String)) :
    s.SameChildren (s.applyParents parents) := by
  unfold applyParents
  split
  next => exact ⟨rfl, rfl, rfl, rfl⟩
  next => exact ⟨rfl, rfl, rfl, rfl⟩

theorem foldl_attachMember_contains (ms : List (String × ContainerKey)) (s : Store) {x : String}
    (hx : s.nodes.contains x) : (ms.foldl (attachMember ids) s).nodes.contains x := by
  unfold KeyedTable.contains at hx ⊢
  rw [foldl_attachMember_nodes, find?_foldl_insertIgnore, Option.isSome_or, hx]
  rfl

end Store

namespace IndexFile

theorem grows_attached (f : IndexFile) (p : Pending) :
    Grows f { f with toStore := (p.members.foldl (Store.attachMember ids) f.toStore).applyParents p.parents } where
  nodes := by
    intro x hx
    rw [Store.applyParents_nodes]
    exact Store.foldl_attachMember_contains p.members f.toStore hx
  rows := hasRow_of_sameChildren
    ((Store.sameChildren_foldl (Store.attachMember ids) (fun _ _ => ⟨rfl, rfl, rfl, rfl⟩) _ _).trans
      (Store.applyParents_sameChildren _ _))

theorem Grows.owned (hg : Grows f g) (ho : f.Owned) : g.Owned :=
  fun r hr => hg.nodes _ (ho r ((hg.rows r).mp hr))

theorem sheds_recount (ids : ContainerIds) (f : IndexFile) (key : ContainerKey) (ho : f.Owned) :
    Sheds f (f.recount ids key) := by
  by_cases h : f.definesCount (ids.containerId key) = 0
  · exact (drops_recount h).sheds ho
  · exact (sameNodes_recount h).sheds ho

theorem Shows.attach (hs : f.Shows L) (p : Pending) : (f.attach ids p).Shows (L.restrict (f.attach ids p)) :=
  hs.restrict (grows_attached f p)
    (sheds_foldl (sheds_recount ids) p.touched _ ((grows_attached f p).owned (fun _ hr => hs.owned hr)))

theorem Shows.self (hs : f.Shows L) : f.Shows (L.restrict f) :=
  hs.shed (SameNodes.sheds ⟨fun _ => rfl, fun _ => Iff.rfl⟩ (fun _ hr => hs.owned hr))

theorem Shows.applyDiff (hs : f.Shows L) (hg : f.applyDiff ids d = some g) : g.Shows ((L.writeDiff d).restrict g) := by
  rw [applyDiff_eq] at hg
  obtain ⟨mid, hmid, rfl⟩ := Option.map_eq_some_iff.mp hg
  have hsame := Store.detach_sameChildren ids f.toStore d.toDiff
  exact ((hs.same (sameNodes_of_eq hsame.1 hsame.2)).writeRows hmid).attach _

theorem applyDiff_contains {x : String} (hg : f.applyDiff ids d = some g) (hx : f.nodes.contains x)
    (hdel : x ∉ d.deleteNodeIds) (hc : ∀ k, x ≠ ids.containerId k) : g.nodes.contains x := by
  have hrow := Store.applyDiff_node_plain hc f.toStore d.toDiff
  have hdel : x ∉ d.toDiff.deleteNodeIds := hdel
  rw [← applyDiff_toStore hg, if_neg hdel] at hrow
  unfold KeyedTable.contains at hx ⊢
  rw [hrow, Option.isSome_or, hx, Bool.or_true]

theorem hasRow_replaceUntypedCalls (f : IndexFile) (n : DeclaredRecord) (r : ChildRow) :
    (f.replaceUntypedCalls n).HasRow r ↔
      (f.HasRow r ∧ (r.isUntypedCall = false ∨ r.nodeId ≠ n.id)) ∨ r ∈ n.untypedRows := by
  cases r with
  | untypedCall r =>
    show r ∈ (f.toStore.replaceUntypedCalls n.toNodeRecord).untypedCalls ↔ _
    rw [Store.mem_replaceUntypedCalls]
    simp [DeclaredRecord.untypedRows, HasRow, ChildRow.nodeId, ChildRow.isUntypedCall]
  | _ => simp [DeclaredRecord.untypedRows, HasRow, ChildRow.isUntypedCall, replaceUntypedCalls,
      Store.replaceUntypedCalls]

theorem Shows.setUntypedCalls (hs : f.Shows L) {n : DeclaredRecord}
    (hn : n.untypedCalls = [] ∨ f.nodes.contains n.id) :
    (f.replaceUntypedCalls n).Shows (L.setUntypedCalls n) where
  nodes := by
    intro x
    show f.nodes.contains x = _
    rw [hs.nodes, RowLedger.setUntypedCalls]
    split <;> simp
  rows := by
    intro r
    rw [hasRow_replaceUntypedCalls, hs.rows, RowLedger.setUntypedCalls]
    by_cases hx : r.nodeId = n.id
    · rw [if_pos hx]
      cases hL : L r.nodeId with
      | none =>
        have hempty : n.untypedRows = [] := by
          rcases hn with hn | hn
          · simp [DeclaredRecord.untypedRows, hn]
          · rw [← hx, hs.nodes, hL] at hn
            simp at hn
        simp [hempty]
      | some rows => simp [hx, List.mem_append, List.mem_filter]
    · have hnot : r ∉ n.untypedRows := by
        rintro hr
        obtain ⟨name, _, rfl⟩ := List.mem_map.mp hr
        exact hx rfl
      simp [hx, hnot]

theorem Shows.foldl_setUntypedCalls {ns : List DeclaredRecord} (hs : f.Shows L)
    (hn : ∀ n ∈ ns, n.untypedCalls = [] ∨ f.nodes.contains n.id) :
    (ns.foldl replaceUntypedCalls f).Shows (ns.foldl RowLedger.setUntypedCalls L) := by
  induction ns generalizing f L with
  | nil => exact hs
  | cons n _ ih =>
    refine ih (hs.setUntypedCalls (hn n List.mem_cons_self)) ?_
    intro m hm
    exact hn m (List.mem_cons_of_mem _ hm)

theorem foldl_replaceUntypedCalls_nodes (ns : List DeclaredRecord) (f : IndexFile) :
    (ns.foldl replaceUntypedCalls f).nodes = f.nodes :=
  List.foldlRecOn (motive := fun t : IndexFile => t.nodes = f.nodes) ns replaceUntypedCalls rfl (fun _ ht _ _ => ht)

def SparesContainers (ids : ContainerIds) (d : IndexDiff) : Prop :=
  ∀ n ∈ d.upsertNodes, n.untypedCalls ≠ [] → ∀ k, n.id ≠ ids.containerId k

theorem Shows.applySemanticDiff (hs : f.Shows L) (hd : SparesContainers ids d)
    (hg : f.applySemanticDiff ids d = some g) :
    g.Shows ((f.keptPart d).foldl RowLedger.setUntypedCalls ((L.writeDiff (f.insertedPart d)).restrict g)) := by
  rw [applySemanticDiff_eq] at hg
  obtain ⟨mid, hmid, rfl⟩ := Option.map_eq_some_iff.mp hg
  rw [RowLedger.restrict_congr (foldl_replaceUntypedCalls_nodes (f.keptPart d) mid)]
  refine (hs.applyDiff hmid).foldl_setUntypedCalls ?_
  intro n hn
  obtain ⟨hmem, hkeep⟩ := List.mem_filter.mp hn
  by_cases hcalls : n.untypedCalls = []
  · exact .inl hcalls
  · unfold keeps Store.keeps at hkeep
    rw [Bool.and_eq_true, decide_eq_true_iff] at hkeep
    exact .inr (applyDiff_contains hmid hkeep.2 hkeep.1 (hd n hmem hcalls))

theorem sheds_linkImport (f : IndexFile) (p : ImportPlaceholder) (ho : f.Owned) : Sheds f (f.linkImport p) := by
  unfold linkImport
  split
  next => exact SameNodes.sheds ⟨fun _ => rfl, fun _ => Iff.rfl⟩ ho
  next target _ =>
    have hsame : SameNodes f { f with toStore := f.toStore.repointImports p.id target } :=
      sameNodes_of_eq rfl ⟨rfl, rfl, rfl, rfl⟩
    have hshed := hsame.sheds ho
    dsimp only
    split
    next => exact hshed
    next => exact hshed.trans ((drops_deleteNode _ p.id).sheds hshed.owned)

theorem sameNodes_link (rules : LinkRules) (f : IndexFile) (qs : List Placeholder) :
    SameNodes f { f with toStore := (f.toStore.link rules qs).1 } :=
  sameNodes_of_eq rfl ⟨rfl, rfl, rfl, rfl⟩

theorem sheds_deletePlaceholder (language : String) (f : IndexFile) (id : String) (ho : f.Owned) :
    Sheds f (f.deletePlaceholder language id) := by
  unfold deletePlaceholder
  split
  next =>
    have hdrop := drops_deleteNode f id
    exact Drops.sheds ⟨hdrop.nodes, hdrop.rows⟩ ho
  next => exact SameNodes.sheds ⟨fun _ => rfl, fun _ => Iff.rfl⟩ ho

theorem hasRow_swapAttached (f staging : IndexFile) (plan : Plan) (r : ChildRow) :
    (swapAttached f staging plan).HasRow r ↔
      if r.nodeId ∈ plan.upsertNodes then staging.HasRow r else f.HasRow r ∧ r.nodeId ∉ plan.deleteNodes := by
  cases r with
  | declaration r => exact mem_swapChildren (fun _ _ h => congrArg Prod.fst h)
  | target r => exact mem_swapChildren (fun _ _ h => h)
  | alsoScope r => exact mem_swapChildren (fun _ _ h => congrArg AlsoScopeRow.nodeId h)
  | suffix r => exact mem_swapChildren (fun _ _ h => congrArg SuffixRow.nodeId h)
  | untypedCall r => exact mem_swapChildren (fun _ _ h => congrArg UntypedCallRow.nodeId h)

theorem swapAttached_contains (f staging : IndexFile) (plan : Plan) (x : String) :
    (swapAttached f staging plan).nodes.contains x ↔ (staging.nodes.contains x ∧ x ∈ plan.upsertNodes) ∨
        (f.nodes.contains x ∧ x ∉ plan.deleteNodes) := by
  simp only [contains_iff, swapAttached, mem_copy, mem_filter, decide_eq_true_iff]
  constructor
  · rintro ⟨n, ⟨hn, hup⟩ | ⟨⟨hn, hdel⟩, _⟩, rfl⟩
    · exact .inl ⟨⟨n, hn, rfl⟩, hup⟩
    · exact .inr ⟨⟨n, hn, rfl⟩, hdel⟩
  · rintro (⟨⟨n, hn, rfl⟩, hup⟩ | ⟨⟨n, hn, rfl⟩, hdel⟩)
    · exact ⟨n, Or.inl ⟨hn, hup⟩, rfl⟩
    · by_cases hstaged : ∃ m ∈ staging.nodes, m.id ∈ plan.upsertNodes ∧ m.id = n.id
      · obtain ⟨m, hm, hup, hid⟩ := hstaged
        exact ⟨m, Or.inl ⟨hm, hup⟩, hid⟩
      · refine ⟨n, Or.inr ⟨⟨hn, hdel⟩, ?_⟩, rfl⟩
        intro m hm hup hid
        exact hstaged ⟨m, hm, hup, hid⟩

/-- A swap takes in the child rows of the nodes it upserts and drops those of deleted ones. -/
theorem Shows.swapAttached {staging : IndexFile} {M : RowLedger} (hs : f.Shows L) (ht : staging.Shows M)
    (plan : Plan) :
    (swapAttached f staging plan).Shows ((L.swap M plan).restrict (swapAttached f staging plan)) where
  nodes := by
    intro x
    rw [RowLedger.restrict]
    split
    next hx => simp [hx]
    next hx => simp [hx]
  rows := by
    intro r
    have hnodes := swapAttached_contains f staging plan r.nodeId
    rw [hs.nodes, ht.nodes] at hnodes
    rw [hasRow_swapAttached, hs.rows, ht.rows, RowLedger.restrict, RowLedger.swap]
    by_cases hup : r.nodeId ∈ plan.upsertNodes
    · simp only [hup, if_true]
      cases hM : M r.nodeId with
      | none => simp
      | some rows => simp [hnodes, hup, hM]
    · simp only [hup, if_false]
      by_cases hdel : r.nodeId ∈ plan.deleteNodes
      · simp [hdel]
      · cases hL : L r.nodeId with
        | none => simp [hdel]
        | some rows => simp [hnodes, hdel, hL]

end IndexFile

def History.SparesContainers (ids : ContainerIds) (rules : LinkRules) (h : History) : Prop :=
  h.All ids rules (fun _ o => ∀ d, o = .applySemanticDiff d → IndexFile.SparesContainers ids d) (fun _ _ _ => True)

namespace IndexFile

theorem Shows.getD {written : Option IndexFile} {after : IndexFile → RowLedger} (hs : f.Shows L)
    (h : ∀ g, written = some g → g.Shows (after g)) :
    (written.getD f).Shows (if written.isSome then after (written.getD f) else L) := by
  cases hg : written with
  | none => exact hs
  | some g => exact h g hg

/-- Every write keeps the child rows as the ledger says. -/
theorem Shows.run {o : IndexOp} (hs : f.Shows L) (ho : ∀ d, o = .applySemanticDiff d → SparesContainers ids d) :
    (o.run ids rules f).Shows (o.ledger ids rules f L) := by
  have howned : f.Owned := fun _ hr => hs.owned hr
  cases o with
  | applyDiff | applyFileDiff => exact hs.getD (fun g hg => hs.applyDiff hg)
  | applySemanticDiff d => exact hs.getD (fun g hg => hs.applySemanticDiff (ho d rfl) hg)
  | linkDiffImports | linkAllImports => exact hs.shed (sheds_foldl sheds_linkImport _ f howned)
  | linkDiff | linkAll => exact (hs.same (sameNodes_link rules f _)).self
  | deletePlaceholders language placeholders =>
    exact hs.shed (sheds_foldl (sheds_deletePlaceholder language) placeholders f howned)

end IndexFile

/-- After every history the child rows are as the ledger says. -/
theorem History.shows (h : History) (hc : h.SparesContainers ids rules) :
    (h.file ids rules).Shows (h.ledger ids rules) := by
  induction h with
  | empty =>
    refine ⟨fun _ => rfl, ?_⟩
    intro r
    cases r <;> simp [IndexFile.HasRow, History.file, History.ledger, mem_def]
  | op _ _ ih => exact (ih hc.1).run hc.2
  | swap _ _ plan ihb ihs => exact (ihb hc.1).swapAttached (ihs hc.2.1) plan

/-- A row beside `nodes` names a node there is, and is one of those that this node was last sent with. -/
theorem child_rows_go_with_their_node (ids : ContainerIds) (rules : LinkRules) (h : History)
    (hc : h.SparesContainers ids rules) :
    (∀ r, (h.file ids rules).HasRow r → (h.file ids rules).nodes.contains r.nodeId = true) ∧
      ∀ r, (h.file ids rules).HasRow r ↔ ∃ rows, h.ledger ids rules r.nodeId = some rows ∧ r ∈ rows :=
  ⟨fun _ hr => (h.shows hc).owned hr, (h.shows hc).rows⟩

def reusedId : History :=
  ((History.empty.op (.applyDiff
      { upsertNodes := [{ id := "a", untypedCalls := ["x"], declarations := [{ ordinal := 0 }] }] })).op
    (.applyDiff { deleteNodeIds := ["a"] })).op
    (.applyDiff { upsertNodes := [{ id := "a", untypedCalls := ["y"] }] })

theorem child_rows_reusedId :
    (reusedId.file taggedIds {}).nodes.contains "a" = true ∧
      ¬ (reusedId.file taggedIds {}).HasRow (.untypedCall ⟨"x", "a"⟩) := by
  have hc : reusedId.SparesContainers taggedIds {} := by
    refine ⟨⟨⟨trivial, ?_⟩, ?_⟩, ?_⟩ <;> simp
  refine ⟨by decide +kernel, ?_⟩
  intro hr
  obtain ⟨rows, hrows, hmem⟩ := ((child_rows_go_with_their_node taggedIds {} reusedId hc).2 _).mp hr
  have hledger : reusedId.ledger taggedIds {} "a" = some [.untypedCall ⟨"y", "a"⟩] := by decide +kernel
  cases (hledger.symm.trans hrows)
  simp at hmem

def emptiedContainer : History :=
  (History.empty.op (.applyDiff { upsertNodes := [{ id := "m", language := "go", container := some "p" }] })).op
    (.applySemanticDiff
      { upsertNodes := [{ id := taggedIds.containerId ("go", "p"), untypedCalls := ["f"] }], deleteNodeIds := ["m"] })

theorem child_rows_emptiedContainer :
    (emptiedContainer.file taggedIds {}).nodes.contains (taggedIds.containerId ("go", "p")) = false ∧
      (emptiedContainer.file taggedIds {}).HasRow (.untypedCall ⟨"f", taggedIds.containerId ("go", "p")⟩) := by
  refine ⟨by decide +kernel, ?_⟩
  show _ ∈ (emptiedContainer.file taggedIds {}).untypedCalls
  decide +kernel

end GMesh
