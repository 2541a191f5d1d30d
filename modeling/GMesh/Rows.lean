import GMesh.KeyedTable
import Mathlib.Data.String.Basic

namespace GMesh

inductive NodeKind
  | file | module | type | function | variable
  deriving DecidableEq, Repr

inductive EdgeKind
  | defines | imports | calls | supertypeOf | references | exports
  deriving DecidableEq, Repr

/-- `edges.source`: the pass an edge comes from. -/
inductive SourceTier
  | syntactic | semantic
  deriving DecidableEq, Repr

/-- `nodes.visibility`, whose CHECK admits `public`, `file` and `container`. -/
inductive VisibilityKind
  | everywhere | file | container
  deriving DecidableEq, Repr

structure PathSegment where
  sep : Option String := none
  name : String
  deriving DecidableEq, Repr

structure QualifiedPath where
  segments : List PathSegment
  deriving DecidableEq, Repr

structure NodeRow where
  id : String
  kind : NodeKind := .function
  name : String := ""
  qualifiedName : String := ""
  filePath : String := ""
  startLine : Int := 0
  startCol : Int := 0
  endLine : Int := 0
  endCol : Int := 0
  signature : Option String := none
  visibility : VisibilityKind := .file
  visibilityContainer : Option String := none
  docComment : Option String := none
  language : String := ""
  nativeKind : Option String := none
  hasSyntaxErrors : Bool := false
  generated : Bool := false
  container : Option String := none
  qualifiedPath : Option QualifiedPath := none
  deriving DecidableEq, Repr

structure EdgeRow where
  id : String
  fromId : String
  toId : String
  kind : EdgeKind := .calls
  source : SourceTier := .syntactic
  engine : String := ""
  resolved : Bool := false
  toDeclaration : Option Int := none
  linkedFrom : Option String := none
  specifier : Option String := none
  deriving DecidableEq, Repr

inductive Direction
  | outgoing | incoming
  deriving DecidableEq, Repr

/-- The endpoint of `e` the anchor sits at: `fromId` when walking out. -/
def EdgeRow.thisEnd (d : Direction) (e : EdgeRow) : String :=
  match d with
  | .outgoing => e.fromId
  | .incoming => e.toId

def EdgeRow.otherEnd (d : Direction) (e : EdgeRow) : String :=
  match d with
  | .outgoing => e.toId
  | .incoming => e.fromId

abbrev NodeTable := KeyedTable NodeRow.id
abbrev EdgeTable := KeyedTable EdgeRow.id

structure Graph where
  nodes : NodeTable := ∅
  edges : EdgeTable := ∅

def Graph.NoDangling (g : Graph) : Prop :=
  ∀ e ∈ g.edges, g.nodes.contains e.fromId = true ∧ g.nodes.contains e.toId = true

instance (g : Graph) : Decidable g.NoDangling :=
  inferInstanceAs (Decidable (∀ e ∈ g.edges, g.nodes.contains e.fromId = true ∧ g.nodes.contains e.toId = true))

section

variable {ρ κ : Type} [LinearOrder κ] {k : ρ → κ} {r : ρ → ρ → Prop}

theorem total_of_key (hr : ∀ a b, r a b ↔ k a ≤ k b) : Std.Total r := ⟨fun a b => by rw [hr, hr]; exact le_total _ _⟩

theorem trans_of_key (hr : ∀ a b, r a b ↔ k a ≤ k b) : IsTrans ρ r := ⟨fun a b c => by rw [hr, hr, hr]; exact le_trans⟩

end

end GMesh
