import GMesh.ResolutionDelta
import GMesh.TextSplits

namespace GMesh

open List Option

/-- A node by what its id is a digest of, within one file. -/
structure DraftNode where
  kind : NodeKind
  qualifiedName : WireText
  nativeKind : String := ""

def qualify (outer name : WireText) : WireText := if outer = [] then name else outer ++ '.' :: name

def outerPrefix (p : WireText) : WireText := ((rsplitOnce '.' p).map Prod.fst).getD []

/-- `p` is the prefix or one of the namespaces around it. -/
def Encloses (p inner : WireText) : Prop := p = inner ∨ p = [] ∨ ∃ rest, inner = p ++ '.' :: rest

variable {p inner q : WireText}

theorem Encloses.isPrefix (h : Encloses p inner) : p <+: inner := by
  rcases h with rfl | rfl | ⟨rest, rfl⟩
  · exact prefix_rfl
  · exact nil_prefix
  · exact prefix_append _ _

theorem outerPrefix_length (h : inner ≠ []) : (outerPrefix inner).length < inner.length := by
  unfold outerPrefix
  cases hsplit : rsplitOnce '.' inner with
  | none => exact length_pos_iff.mpr h
  | some parts =>
    rw [rsplitOnce_some hsplit]
    simp

theorem encloses_iff (h : inner ≠ []) : Encloses p inner ↔ p = inner ∨ Encloses p (outerPrefix inner) := by
  unfold outerPrefix Encloses
  cases hsplit : rsplitOnce '.' inner with
  | none =>
    have hcut : ¬∃ rest, inner = p ++ '.' :: rest := by
      rintro ⟨rest, rfl⟩
      exact rsplitOnce_eq_none_iff.mp hsplit (by simp)
    simp [hcut]
  | some parts =>
    have hcut : (∃ rest, inner = p ++ '.' :: rest) ↔ p = parts.1 ∨ ∃ rest, parts.1 = p ++ '.' :: rest := by
      constructor
      · rintro ⟨rest, hrest⟩
        cases hlast : rsplitOnce '.' rest with
        | none =>
          rw [hrest, rsplitOnce_append (rsplitOnce_eq_none_iff.mp hlast)] at hsplit
          exact .inl (congrArg Prod.fst (some.inj hsplit))
        | some last =>
          rw [hrest, append_cons, rsplitOnce_append_some hlast] at hsplit
          exact .inr ⟨last.1, by simp [← some.inj hsplit]⟩
      · rw [rsplitOnce_some hsplit]
        rintro (rfl | ⟨rest, hrest⟩)
        · exact ⟨_, rfl⟩
        · exact ⟨rest ++ '.' :: parts.2, by simp [hrest]⟩
    rw [hcut]
    simp only [map_some, getD_some]
    tauto

/-- The table of declared symbols, one for each qualified name. -/
structure FileModel where
  byQualifiedName : WireText → Option DraftNode := fun _ => none

namespace FileModel

def declareSymbol (m : FileModel) (n : DraftNode) : FileModel where
  byQualifiedName q := if q = n.qualifiedName then some ((m.byQualifiedName q).getD n) else m.byQualifiedName q

def declareAll (symbols : List DraftNode) : FileModel := symbols.foldl declareSymbol {}

def lookupAt (m : FileModel) (q : WireText) (kind : Option NodeKind) : Option DraftNode :=
  (m.byQualifiedName q).filter fun n => kind.all fun k => decide (n.kind = k)

def lookupByName (m : FileModel) (name inner : WireText) (kind : Option NodeKind) : Option DraftNode :=
  match m.lookupAt (qualify inner name) kind with
  | some n => some n
  | none => if inner = [] then none else m.lookupByName name (outerPrefix inner) kind
termination_by inner.length
decreasing_by exact outerPrefix_length ‹_›

/-- The induction is along the namespaces outwards: the first that answers is the longest. -/
theorem lookupByName_cases (m : FileModel) (name inner : WireText) (kind : Option NodeKind) :
    (m.lookupByName name inner kind = none ∧ ∀ p, Encloses p inner → m.lookupAt (qualify p name) kind = none) ∨
    ∃ p n, Encloses p inner ∧ m.lookupByName name inner kind = some n ∧ m.lookupAt (qualify p name) kind = some n ∧
      ∀ q, Encloses q inner → p.length < q.length → m.lookupAt (qualify q name) kind = none := by
  fun_induction lookupByName m name inner kind with
  | case1 inner n hn =>
    refine .inr ⟨inner, n, .inl rfl, rfl, hn, fun q hq hlt => ?_⟩
    exact absurd hq.isPrefix.length_le (by omega)
  | case2 hmiss =>
    refine .inl ⟨rfl, fun p hp => ?_⟩
    rcases hp with rfl | rfl | ⟨rest, hrest⟩
    · exact hmiss
    · exact hmiss
    · simp at hrest
  | case3 inner hmiss hne ih =>
    simp only [encloses_iff hne]
    rcases ih with ⟨hnone, hall⟩ | ⟨p, n, hp, hn, hat, hinner⟩
    · exact .inl ⟨hnone, fun p hp => hp.elim (fun h => h ▸ hmiss) (hall p)⟩
    · exact .inr ⟨p, n, .inr hp, hn, hat, fun q hq hlt => hq.elim (fun h => h ▸ hmiss) (hinner q · hlt)⟩

variable {kind : Option NodeKind} {symbols : List DraftNode} {s n : DraftNode}

theorem declareAll_byQualifiedName : (declareAll symbols).byQualifiedName q =
    symbols.find? (fun s => decide (s.qualifiedName = q)) := by
  induction symbols using List.reverseRecOn with
  | nil => rfl
  | append_singleton symbols s ih =>
    rw [declareAll, foldl_concat, find?_append, ← ih]
    simp only [declareSymbol, declareAll]
    by_cases hq : q = s.qualifiedName
    · cases (symbols.foldl declareSymbol {}).byQualifiedName q <;> simp [hq]
    · simp [hq, Ne.symm hq]

theorem lookupAt_some (h : (declareAll symbols).lookupAt q kind = some n) :
    n ∈ symbols ∧ (∀ k ∈ kind, n.kind = k) ∧ n.qualifiedName = q := by
  rw [lookupAt, declareAll_byQualifiedName] at h
  obtain ⟨hfind, hkind⟩ := filter_eq_some_iff.mp h
  refine ⟨mem_of_find?_eq_some hfind, fun k hk => ?_, by simpa using find?_some hfind⟩
  simpa [mem_def.mp hk] using hkind

structure Lookup where
  symbols : List DraftNode
  name : WireText
  inner : WireText
  kind : Option NodeKind

namespace Lookup

variable (l : Lookup)

def found : Option DraftNode := (declareAll l.symbols).lookupByName l.name l.inner l.kind

def Declared (p : WireText) (s : DraftNode) : Prop :=
  s ∈ l.symbols ∧ (∀ k ∈ l.kind, s.kind = k) ∧ s.qualifiedName = qualify p l.name

def Innermost (p : WireText) : Prop :=
  Encloses p l.inner ∧ (∃ s, l.Declared p s) ∧ ∀ q, Encloses q l.inner → p.length < q.length → ∀ s, ¬ l.Declared q s

/-- A symbol is found where one is declared in the prefix or a namespace around it, and one of the innermost such. -/
def Right : Prop :=
  (l.found.isSome ↔ ∃ p, Encloses p l.inner ∧ ∃ s, l.Declared p s) ∧
  ∀ n, l.found = some n → ∃ p, l.Innermost p ∧ l.Declared p n

/-- The first declaration of the name in the innermost namespace that has it in the kind is of the kind. -/
def FirstOfKind : Prop :=
  ∀ p, l.Innermost p → ∀ n, l.symbols.find? (fun s => decide (s.qualifiedName = qualify p l.name)) = some n →
    ∀ k ∈ l.kind, n.kind = k

variable {l}

/-- Along the namespaces inwards: a longer one that declares the name takes a shorter one's place. -/
theorem exists_innermost {p : WireText} {s : DraftNode} (hp : Encloses p l.inner) (hs : l.Declared p s) :
    ∃ p', l.Innermost p' ∧ p.length ≤ p'.length := by
  by_cases h : ∃ q, Encloses q l.inner ∧ p.length < q.length ∧ ∃ s, l.Declared q s
  · obtain ⟨q, hq, hlt, s', hs'⟩ := h
    obtain ⟨p', hp', hle⟩ := exists_innermost hq hs'
    exact ⟨p', hp', by omega⟩
  · exact ⟨p, ⟨hp, ⟨s, hs⟩, fun q hq hlt s' hs' => h ⟨q, hq, hlt, s', hs'⟩⟩, le_rfl⟩
termination_by l.inner.length - p.length
decreasing_by
  have := hq.isPrefix.length_le
  omega

theorem Declared.exists_first (hs : l.Declared p s) :
    ∃ n, l.symbols.find? (fun s => decide (s.qualifiedName = qualify p l.name)) = some n := by
  obtain ⟨hmem, _, hq⟩ := hs
  exact isSome_iff_exists.mp (find?_isSome.mpr ⟨s, hmem, decide_eq_true hq⟩)

theorem FirstOfKind.lookupAt_ne_none (h : l.FirstOfKind) (hp : l.Innermost p) :
    (declareAll l.symbols).lookupAt (qualify p l.name) l.kind ≠ none := by
  obtain ⟨s, hs⟩ := hp.2.1
  obtain ⟨n, hn⟩ := hs.exists_first
  have hk := h p hp n hn
  rw [lookupAt, declareAll_byQualifiedName, hn]
  cases hkind : l.kind with
  | none => simp
  | some k => simp [hk k hkind]

theorem right_of_firstOfKind (h : l.FirstOfKind) : l.Right := by
  unfold Right found
  rcases (declareAll l.symbols).lookupByName_cases l.name l.inner l.kind with ⟨hnone, hall⟩ | ⟨p, n, hp, hn, hat, hinner⟩
  · rw [hnone]
    refine ⟨⟨nofun, ?_⟩, nofun⟩
    rintro ⟨p, hp, s, hs⟩
    obtain ⟨p', hp', _⟩ := exists_innermost hp hs
    exact absurd (hall p' hp'.1) (h.lookupAt_ne_none hp')
  · have hdecl : l.Declared p n := lookupAt_some hat
    rw [hn]
    refine ⟨⟨fun _ => ⟨p, hp, n, hdecl⟩, fun _ => rfl⟩, ?_⟩
    rintro _ ⟨⟩
    refine ⟨p, ⟨hp, ⟨n, hdecl⟩, fun q hq hlt s hs => ?_⟩, hdecl⟩
    obtain ⟨p', hp', hle⟩ := exists_innermost hq hs
    exact h.lookupAt_ne_none hp' (hinner p' hp'.1 (by omega))

theorem Innermost.unique (hp : l.Innermost p) (hq : l.Innermost q) : p = q := by
  obtain ⟨hp, ⟨s, hs⟩, hpmax⟩ := hp
  obtain ⟨hq, ⟨t, ht⟩, hqmax⟩ := hq
  have hlen : p.length = q.length :=
    Nat.le_antisymm (not_lt.mp fun hlt => hqmax p hp hlt s hs) (not_lt.mp fun hlt => hpmax q hq hlt t ht)
  exact (prefix_of_prefix_length_le hp.isPrefix hq.isPrefix hlen.le).eq_of_length hlen

theorem firstOfKind_of_right (h : l.Right) : l.FirstOfKind := by
  intro p hp n hn k hk
  obtain ⟨m, hm⟩ := isSome_iff_exists.mp (h.1.mpr ⟨p, hp.1, hp.2.1⟩)
  obtain ⟨q, hq, hdecl⟩ := h.2 m hm
  -- what a lookup finds is the first of its qualified name
  rcases (declareAll l.symbols).lookupByName_cases l.name l.inner l.kind with ⟨hnone, _⟩ | ⟨_, m', _, hm', hat, _⟩
  · exact absurd (hnone.symm.trans hm) nofun
  · cases hm'.symm.trans hm
    rw [← (lookupAt_some hat).2.2, hdecl.2.2, ← hp.unique hq, lookupAt, declareAll_byQualifiedName, hn] at hat
    rw [some.inj (filter_eq_some_iff.mp hat).1]
    exact hdecl.2.1 k hk

/-- At the module's root the first declaration of a name is of the kind of every other. -/
theorem Right.kind_eq (h : Right ⟨symbols, s.qualifiedName, [], some s.kind⟩) (hs : s ∈ symbols)
    (hn : symbols.find? (fun t => decide (t.qualifiedName = s.qualifiedName)) = some n) : n.kind = s.kind := by
  refine firstOfKind_of_right h [] ⟨.inl rfl, ⟨s, hs, by simp, rfl⟩, fun q hq hlt => ?_⟩ n hn _ rfl
  exact absurd hq.isPrefix.length_le (not_le.mpr hlt)

end Lookup

def OneKind (symbols : List DraftNode) : Prop :=
  ∀ a ∈ symbols, ∀ b ∈ symbols, a.qualifiedName = b.qualifiedName → a.kind = b.kind

/-- A lookup is right exactly when the first declaration of the name, in the innermost namespace that has it in the
kind, is of the kind. All lookups in a file are exactly when no two declarations of one name differ in kind. -/
theorem lookup_finds_declared (symbols : List DraftNode) : (∀ name inner kind,
      Lookup.Right ⟨symbols, name, inner, kind⟩ ↔ Lookup.FirstOfKind ⟨symbols, name, inner, kind⟩) ∧
    ((∀ name inner kind, Lookup.Right ⟨symbols, name, inner, kind⟩) ↔ OneKind symbols) := by
  refine ⟨fun _ _ _ => ⟨Lookup.firstOfKind_of_right, Lookup.right_of_firstOfKind⟩, ?_, ?_⟩
  · intro hall a ha b hb hab
    have hdecl : Lookup.Declared ⟨symbols, a.qualifiedName, [], none⟩ [] a := ⟨ha, nofun, rfl⟩
    obtain ⟨n, hn⟩ := hdecl.exists_first
    rw [← (hall a.qualifiedName [] (some a.kind)).kind_eq ha hn, (hall _ [] (some b.kind)).kind_eq hb (hab ▸ hn)]
  · intro hone name inner kind
    refine Lookup.right_of_firstOfKind ?_
    rintro p ⟨_, ⟨s, hs, hk, hq⟩, _⟩ n hn k hkind
    have hsame : n.qualifiedName = s.qualifiedName := by simpa [hq] using find?_some hn
    rw [hone n (mem_of_find?_eq_some hn) s hs hsame, hk k hkind]

/-- `interface B` before `function B`: a call of `B` is not linked, and is in the other order. -/
theorem lookup_hides_merged_function :
    (declareAll [⟨.type, ['B'], "interface"⟩, ⟨.function, ['B'], "function"⟩]).lookupByName ['B'] [] (some .function) = none ∧
    (declareAll [⟨.function, ['B'], "function"⟩, ⟨.type, ['B'], "interface"⟩]).lookupByName ['B'] [] (some .function) =
      some ⟨.function, ['B'], "function"⟩ := by
  constructor <;> rw [lookupByName] <;> rfl

end FileModel

end GMesh
