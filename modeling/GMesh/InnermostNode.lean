import GMesh.SdkGraph
import Mathlib.Data.List.MinMax
import Mathlib.Data.Prod.Lex

namespace GMesh

open DeclaredRecord NodeRow SdkGraph List

/-- A line and a column as both sides compare them: lines first. -/
abbrev Place := ℤ ×ₗ ℤ

/-- What ranges come to for the choice of the innermost one: the two ends, both inside. -/
abbrev Ends := Place × Place

instance sizePreorder : Preorder (ℤ ×ₗ ℤ ×ₗ Bool) := (Prod.Lex.instLinearOrder ℤ (ℤ ×ₗ Bool)).toPreorder

namespace Ends

def Holds (a : Ends) (p : Place) : Prop := a.1 ≤ p ∧ p ≤ a.2

def Inside (a b : Ends) : Prop := b.1 ≤ a.1 ∧ a.2 ≤ b.2

/-- Neighbours, which share at most the end of the one and the start of the other. -/
def Apart (a b : Ends) : Prop := a.2 ≤ b.1 ∨ b.2 ≤ a.1

/-- Every two ranges nest or lie apart. -/
def Laminar {β : Type} (f : β → Ends) (l : List β) : Prop :=
  ∀ x ∈ l, ∀ y ∈ l, Inside (f x) (f y) ∨ Inside (f y) (f x) ∨ Apart (f x) (f y)

/-- The place is where the one range ends and the other starts. -/
def Meet (a b : Ends) (p : Place) : Prop := (a.2 = p ∧ b.1 = p) ∨ (b.2 = p ∧ a.1 = p)

instance (a b : Ends) : Decidable (Inside a b) := inferInstanceAs (Decidable (_ ∧ _))

instance (a b : Ends) : Decidable (Apart a b) := inferInstanceAs (Decidable (_ ∨ _))

instance (a b : Ends) (p : Place) : Decidable (Meet a b p) := inferInstanceAs (Decidable (_ ∨ _))

instance {β : Type} (f : β → Ends) (l : List β) : Decidable (Laminar f l) :=
  inferInstanceAs (Decidable (∀ x ∈ l, ∀ y ∈ l, _ ∨ _))

variable {a b : Ends} {p : Place}

theorem Inside.antisymm (h : Inside a b) (h' : Inside b a) : a = b :=
  Prod.ext (le_antisymm h'.1 h.1) (le_antisymm h.2 h'.2)

theorem Apart.meet (h : Apart a b) (ha : Holds a p) (hb : Holds b p) : Meet a b p := by
  rcases h with h | h
  · exact .inl ⟨le_antisymm (h.trans hb.1) ha.2, le_antisymm hb.1 (ha.2.trans h)⟩
  · exact .inr ⟨le_antisymm (h.trans ha.1) hb.2, le_antisymm ha.1 (hb.2.trans h)⟩

theorem exists_innermost {β : Type} {f : β → Ends} {l : List β} (hl : l ≠ [])
    (h : ∀ x ∈ l, ∀ y ∈ l, Inside (f x) (f y) ∨ Inside (f y) (f x)) : ∃ x ∈ l, ∀ y ∈ l, Inside (f x) (f y) := by
  induction l with
  | nil => exact absurd rfl hl
  | cons n rest ih =>
    have hself : Inside (f n) (f n) := ⟨le_rfl, le_rfl⟩
    rcases rest with _ | ⟨n', rest⟩
    · exact ⟨n, mem_cons_self, by simpa using hself⟩
    · obtain ⟨x, hx, hin⟩ := ih (by simp) fun y hy z hz =>
        h y (mem_cons_of_mem n hy) z (mem_cons_of_mem n hz)
      rcases h n mem_cons_self x (mem_cons_of_mem n hx) with hnx | hnx
      · refine ⟨n, mem_cons_self, fun y hy => ?_⟩
        rcases mem_cons.mp hy with rfl | hy
        · exact hself
        · exact ⟨(hin y hy).1.trans hnx.1, hnx.2.trans (hin y hy).2⟩
      · refine ⟨x, mem_cons_of_mem n hx, fun y hy => ?_⟩
        rcases mem_cons.mp hy with rfl | hy
        · exact hnx
        · exact hin y hy

end Ends

open Ends

def TextPosition.place (p : TextPosition) : Place := toLex ((p.line : ℤ), (p.col : ℤ))

def TextRange.ends (r : TextRange) : Ends := (r.start.place, r.stop.place)

variable {p q : TextPosition} {r s : TextRange}

theorem TextRange.ends_inj (h : r.ends = s.ends) : r = s := by
  obtain ⟨⟨a, b⟩, c, d⟩ := r
  obtain ⟨⟨a', b'⟩, c', d'⟩ := s
  simp only [TextRange.ends, TextPosition.place, Prod.mk.injEq, EmbeddingLike.apply_eq_iff_eq] at h
  simp only [TextRange.mk.injEq, TextPosition.mk.injEq]
  omega

theorem TextPosition.upTo_iff_place : p.upTo q ↔ p.place ≤ q.place := by
  simp only [TextPosition.upTo, TextPosition.place, Prod.Lex.toLex_le_toLex, Bool.or_eq_true, Bool.and_eq_true,
    decide_eq_true_eq, beq_iff_eq]
  omega

theorem TextRange.contains_iff : r.contains p ↔ Holds r.ends p.place := by
  simp [TextRange.contains, Holds, TextRange.ends, TextPosition.upTo_iff_place]

def DeclaredRecord.rank (n : DeclaredRecord) : ℕ ×ₗ ℕ ×ₗ Bool ×ₗ String :=
  toLex (n.range.span.line, toLex (n.range.span.col, toLex (decide (n.kind = .file), n.id)))

theorem DeclaredRecord.rank_lt {a b : DeclaredRecord}
    (h : toLex (a.range.span.line, a.range.span.col) < toLex (b.range.span.line, b.range.span.col)) :
    a.rank < b.rank := by
  unfold rank
  simp only [Prod.Lex.toLex_lt_toLex] at h ⊢
  exact h.imp_right fun h => ⟨h.1, .inl h.2⟩

theorem DeclaredRecord.tighter_iff {a b : DeclaredRecord} : a.tighter b ↔ a.rank < b.rank := by
  unfold tighter rank
  simp only [Prod.Lex.toLex_lt_toLex]
  by_cases hspan : a.range.span = b.range.span
  · by_cases ha : a.kind = .file <;> by_cases hb : b.kind = .file <;> simp [hspan, ha, hb]
  · have : a.range.span.line = b.range.span.line → a.range.span.col ≠ b.range.span.col := by
      intro hl hc
      exact hspan (by cases h : a.range.span; cases h' : b.range.span; simp_all)
    simp only [hspan, if_false, TextPosition.upTo, Bool.or_eq_true, decide_eq_true_eq, Bool.and_eq_true, beq_iff_eq]
    grind

def SdkGraph.nodesAt (g : SdkGraph) (p : TextPosition) : List DeclaredRecord :=
  g.nodes.filter fun n => n.range.contains p

theorem SdkIndex.nodeAt_eq {index : SdkIndex} {path : String} {g : SdkGraph} (hg : index.graph path = some g) :
    index.nodeAt path p = (g.nodesAt p).argmin rank := by
  unfold SdkIndex.nodeAt List.argmin nodesAt
  rw [hg]
  refine congrArg (List.foldl · none _) ?_
  funext best n
  cases best with
  | none => rfl
  | some held => simp [List.argAux, tighter_iff]

theorem TextRange.span_of_inside (h : Inside r.ends s.ends) (hp : Holds r.ends p.place) :
    toLex (r.span.line, r.span.col) < toLex (s.span.line, s.span.col) ∨ r = s ∨
      s.start.line = r.start.line ∧ s.stop = r.stop ∧ r.start.line < r.stop.line := by
  obtain ⟨⟨a, b⟩, c, d⟩ := r
  obtain ⟨⟨a', b'⟩, c', d'⟩ := s
  have hordered := hp.1.trans hp.2
  simp only [Inside, TextRange.ends, TextPosition.place, Prod.Lex.toLex_le_toLex] at h hordered
  simp only [TextRange.span, Prod.Lex.toLex_lt_toLex, TextRange.mk.injEq, TextPosition.mk.injEq]
  by_cases hlines : c - a < c' - a'
  · exact .inl (.inl hlines)
  · obtain ⟨rfl, rfl⟩ : a' = a ∧ c' = c := by omega
    split <;> omega

theorem TextRange.span_of_tie (hstart : s.start.line = r.start.line) (hstop : s.stop = r.stop)
    (hlines : r.start.line < r.stop.line) : s.span = r.span := by
  unfold TextRange.span
  rw [hstart, hstop, if_neg (by omega), if_neg (by omega)]

/-- Whether `n` wins over a node of the same size: a file's own node loses, then the larger id, then the later one. -/
def DeclaredRecord.WinsTie (l : List DeclaredRecord) (n m : DeclaredRecord) : Prop :=
  (n.kind ≠ .file ∧ m.kind = .file) ∨
    (n.kind = .file ↔ m.kind = .file) ∧ n.id ≤ m.id ∧ (n.id = m.id → l.idxOf n ≤ l.idxOf m)

/-- A node inside every node that holds the position. -/
def SdkGraph.Innermost (g : SdkGraph) (p : TextPosition) (n : DeclaredRecord) : Prop :=
  n ∈ g.nodesAt p ∧ ∀ m ∈ g.nodesAt p, Inside n.range.ends m.range.ends

instance (g : SdkGraph) (p : TextPosition) (n : DeclaredRecord) : Decidable (g.Innermost p n) :=
  inferInstanceAs (Decidable (_ ∧ ∀ m ∈ g.nodesAt p, _))

variable {g : SdkGraph} {n m : DeclaredRecord}

theorem SdkGraph.mem_nodesAt : n ∈ g.nodesAt p ↔ n ∈ g.nodes ∧ Holds n.range.ends p.place := by
  rw [nodesAt, mem_filter, TextRange.contains_iff]

theorem DeclaredRecord.winsTie_iff {l : List DeclaredRecord} (hspan : n.range.span = m.range.span) :
    n.WinsTie l m ↔ n.rank ≤ m.rank ∧ (m.rank ≤ n.rank → l.idxOf n ≤ l.idxOf m) := by
  have hid : (n.id ≤ m.id ∧ (n.id = m.id → l.idxOf n ≤ l.idxOf m)) ↔
      (n.id ≤ m.id ∧ (m.id ≤ n.id → l.idxOf n ≤ l.idxOf m)) :=
    and_congr_right fun h => ⟨fun h' hle => h' (le_antisymm h hle), fun h' he => h' he.ge⟩
  unfold DeclaredRecord.WinsTie rank
  rw [hid, hspan]
  by_cases hn : n.kind = .file <;> by_cases hm : m.kind = .file <;> simp [hn, hm, Prod.Lex.toLex_le_toLex]

/-- The position's node is the innermost one exactly when that one wins over every other node that starts on its line
and, lines further down, ends at its end: of such nodes the sizes say nothing. -/
theorem nodeAt_innermost_iff {index : SdkIndex} {path : String} (hg : index.graph path = some g)
    (hdistinct : (g.nodes.map fun n => n.range).Nodup)
    (hnest : Laminar (fun n => n.range.ends) g.nodes)
    (hplace : ∀ a ∈ g.nodes, ∀ b ∈ g.nodes, Meet a.range.ends b.range.ends p.place →
      Inside a.range.ends b.range.ends ∨ Inside b.range.ends a.range.ends)
    (hheld : ∃ n ∈ g.nodes, n.range.contains p = true) :
    (∃ n, index.nodeAt path p = some n ∧ g.Innermost p n) ↔
      ∀ n m, g.Innermost p n → m ∈ g.nodesAt p → m ≠ n → m.range.start.line = n.range.start.line →
        m.range.stop = n.range.stop → n.range.start.line < n.range.stop.line → n.WinsTie (g.nodesAt p) m := by
  have hnested : ∀ a ∈ g.nodesAt p, ∀ b ∈ g.nodesAt p, Inside a.range.ends b.range.ends ∨
      Inside b.range.ends a.range.ends := by
    intro a ha b hb
    rw [mem_nodesAt] at ha hb
    rcases hnest a ha.1 b hb.1 with h | h | h
    · exact .inl h
    · exact .inr h
    · exact hplace a ha.1 b hb.1 (h.meet ha.2 hb.2)
  rw [SdkIndex.nodeAt_eq hg]
  constructor
  · rintro ⟨x, hx, hinner⟩ n m hn hm hne hstart hstop hlines
    obtain ⟨hmem, hle, hfirst⟩ := mem_argmin_iff.mp hx
    have hends : n.range = x.range := TextRange.ends_inj ((hn.2 x hmem).antisymm (hinner.2 n hn.1))
    obtain rfl : n = x := inj_on_of_nodup_map hdistinct (mem_nodesAt.mp hn.1).1
      (mem_nodesAt.mp hmem).1 hends
    exact (winsTie_iff (TextRange.span_of_tie hstart hstop hlines).symm).mpr ⟨hle m hm, hfirst m hm⟩
  · intro htie
    obtain ⟨held, hmem, hheld⟩ := hheld
    have hnil : g.nodesAt p ≠ [] := ne_nil_of_mem (mem_filter.mpr ⟨hmem, hheld⟩)
    obtain ⟨n, hn⟩ : ∃ n, g.Innermost p n := Ends.exists_innermost hnil hnested
    obtain ⟨x, hx⟩ : ∃ x, (g.nodesAt p).argmin rank = some x :=
      Option.ne_none_iff_exists'.mp fun h => hnil (argmin_eq_none.mp h)
    obtain ⟨hxmem, hle, hfirst⟩ := mem_argmin_iff.mp hx
    suffices hxn : x = n from ⟨x, hx, hxn ▸ hn⟩
    by_contra hne
    have hspan := TextRange.span_of_inside (hn.2 x hxmem) (mem_nodesAt.mp hn.1).2
    rcases hspan with h | h | ⟨hstart, hstop, hlines⟩
    · exact absurd (hle n hn.1) (not_le_of_gt (rank_lt h))
    · exact hne (inj_on_of_nodup_map hdistinct (mem_nodesAt.mp hxmem).1
        (mem_nodesAt.mp hn.1).1 h.symm)
    · have hwins := (winsTie_iff (TextRange.span_of_tie hstart hstop hlines).symm).mp
        (htie n x hn hxmem hne hstart hstop hlines)
      exact hne (idxOf_inj hxmem |>.mp (le_antisymm (hfirst n hn.1 hwins.1) (hwins.2 (hle n hn.1))))

def namedVariable (id : String) : DeclaredRecord :=
  { id, kind := .variable, startCol := 6, endLine := 1, endCol := 1 }

def namedType (id : String) : DeclaredRecord := { id, kind := .type, startCol := 10, endLine := 1, endCol := 1 }

/-- The extraction of `const a = class B {` with the closing brace on the next line. -/
def namedClass (a b : String) : SdkGraph where
  nodes := [{ id := "f", kind := .file, endLine := 1, endCol := 1 }, namedVariable a, namedType b]

def namedClassIndex (a b : String) : SdkIndex where
  files := [{ path := "a.ts", graph := namedClass a b }]
  ordered := pairwise_singleton _ _

theorem nodeAt_namedClass :
    (namedType "1").WinsTie ((namedClass "2" "1").nodesAt ⟨0, 16⟩) (namedVariable "2") := by
  have hg : (namedClassIndex "2" "1").graph "a.ts" = some (namedClass "2" "1") := rfl
  have hinner : (namedClass "2" "1").Innermost ⟨0, 16⟩ (namedType "1") := by decide +kernel
  exact (nodeAt_innermost_iff hg (by decide) (by decide +kernel) (by decide +kernel) (by decide +kernel)).mp
    ⟨namedType "1", rfl, hinner⟩ (namedType "1") (namedVariable "2") hinner (by decide +kernel) (by decide) rfl rfl
    (by decide)

/-- The class has its name at the position, and the variable that holds the class is the answer. -/
theorem nodeAt_namedVariable : Laminar (fun n => n.range.ends) (namedClass "1" "2").nodes ∧
    ((namedClass "1" "2").nodes.map fun n => n.range).Nodup ∧
    (∀ a ∈ (namedClass "1" "2").nodes, ∀ b ∈ (namedClass "1" "2").nodes,
      ¬Meet a.range.ends b.range.ends (TextPosition.place ⟨0, 16⟩)) ∧
    (namedClassIndex "1" "2").nodeAt "a.ts" ⟨0, 16⟩ = some (namedVariable "1") ∧
    (namedClass "1" "2").Innermost ⟨0, 16⟩ (namedType "2") := by
  decide +kernel

def NodeRow.ends (n : NodeRow) : Ends := (toLex (n.startLine, n.startCol), toLex (n.endLine, n.endCol))

def declarationsOf (rows : List NodeRow) (filePath : String) : List NodeRow :=
  rows.filter fun n => n.filePath == filePath && isDeclaration n.nativeKind

/-- `ORDER BY (endLine - startLine), (endCol - startCol), (kind = 'File')`. -/
def NodeRow.positionOrder (n : NodeRow) : ℤ ×ₗ ℤ ×ₗ Bool :=
  toLex (n.endLine - n.startLine, toLex (n.endCol - n.startCol, decide (n.kind = .file)))

def NodeRow.encloses (n : NodeRow) (line col : ℤ) : Bool :=
  (decide (n.startLine < line) || (n.startLine == line && decide (n.startCol ≤ col))) &&
    (decide (n.endLine > line) || (n.endLine == line && decide (n.endCol ≥ col)))

/-- The innermost node at a cursor position: the first row of the least size, in the order of the engine's scan. -/
def findByPosition (scan : List NodeRow) (filePath : String) (line col : ℤ) : Option NodeRow :=
  ((declarationsOf scan filePath).filter fun n => n.encloses line col).argmin positionOrder

theorem NodeRow.encloses_iff {n : NodeRow} {line col : ℤ} : n.encloses line col ↔ Holds n.ends (toLex (line, col)) := by
  simp only [encloses, Holds, ends, Prod.Lex.toLex_le_toLex, Bool.and_eq_true, Bool.or_eq_true,
    decide_eq_true_eq, beq_iff_eq]
  omega

theorem NodeRow.positionOrder_lt {a b : NodeRow} (hin : Inside a.ends b.ends) (hne : a.ends ≠ b.ends) :
    a.positionOrder < b.positionOrder := by
  simp only [Inside, ends, Prod.Lex.toLex_le_toLex, ne_eq, Prod.mk.injEq, EmbeddingLike.apply_eq_iff_eq] at hin hne
  simp only [positionOrder, Prod.Lex.toLex_lt_toLex]
  by_cases hlines : a.endLine - a.startLine < b.endLine - b.startLine
  · exact .inl hlines
  · obtain ⟨hstart, hend⟩ : a.startLine = b.startLine ∧ a.endLine = b.endLine := by omega
    exact .inr ⟨by omega, .inl (by omega)⟩

variable {rows other : List NodeRow} {filePath : String} {line col : ℤ} {x y : NodeRow}

section

variable (hscan : other.Perm rows)

include hscan

theorem mem_enclosing :
    x ∈ (declarationsOf other filePath).filter (fun n => n.encloses line col) ↔
      x ∈ declarationsOf rows filePath ∧ Holds x.ends (toLex (line, col)) := by
  rw [mem_filter, encloses_iff, declarationsOf, (hscan.filter _).mem_iff]
  rfl

theorem findByPosition_spec (h : findByPosition other filePath line col = some x) :
    x ∈ declarationsOf rows filePath ∧ Holds x.ends (toLex (line, col)) ∧
      ∀ y ∈ declarationsOf rows filePath, Holds y.ends (toLex (line, col)) → x.positionOrder ≤ y.positionOrder := by
  obtain ⟨hx, hle, -⟩ := mem_argmin_iff.mp h
  obtain ⟨hx, hheld⟩ := (mem_enclosing hscan).mp hx
  exact ⟨hx, hheld, fun y hy hheld => hle y ((mem_enclosing hscan).mpr ⟨hy, hheld⟩)⟩

theorem findByPosition_isSome :
    (findByPosition other filePath line col).isSome ↔
    ∃ x ∈ declarationsOf rows filePath, Holds x.ends (toLex (line, col)) := by
  constructor
  · intro h
    obtain ⟨x, hx⟩ := Option.isSome_iff_exists.mp h
    obtain ⟨hmem, hheld, -⟩ := findByPosition_spec hscan hx
    exact ⟨x, hmem, hheld⟩
  · rintro ⟨x, hx⟩
    rw [Option.isSome_iff_ne_none]
    intro hnone
    exact ne_nil_of_mem ((mem_enclosing hscan).mpr hx) (argmin_eq_none.mp hnone)

/-- The answer lies inside every other declaration that holds the position and does not just meet it there. -/
theorem findByPosition_inside (hnest : Laminar ends (declarationsOf rows filePath))
    (h : findByPosition other filePath line col = some x) (hy : y ∈ declarationsOf rows filePath)
    (hheld : Holds y.ends (toLex (line, col))) :
    Inside x.ends y.ends ∨ ¬Inside y.ends x.ends ∧ Meet x.ends y.ends (toLex (line, col)) := by
  obtain ⟨hx, hxheld, hle⟩ := findByPosition_spec hscan h
  by_cases hin : Inside y.ends x.ends
  · have hsame : y.ends = x.ends := by
      by_contra hne
      exact absurd (hle y hy hheld) (not_le_of_gt (positionOrder_lt hin hne))
    exact .inl (hsame ▸ hin)
  · rcases hnest x hx y hy with h | h | h
    · exact .inl h
    · exact absurd h hin
    · exact .inr ⟨hin, h.meet hxheld hheld⟩

end

/-- The answer to a position: a declaration that holds it, when there is one, inside every other such declaration. Only
two neighbours that meet at the position are not inside one another. -/
theorem findByPosition_innermost (hnest : Laminar NodeRow.ends (declarationsOf rows filePath)) :
    ((findByPosition rows filePath line col).isSome = true ↔
      ∃ m ∈ declarationsOf rows filePath, Holds m.ends (toLex (line, col))) ∧
    ∀ n, findByPosition rows filePath line col = some n →
      n ∈ declarationsOf rows filePath ∧ Holds n.ends (toLex (line, col)) ∧
      (∀ m ∈ declarationsOf rows filePath, Holds m.ends (toLex (line, col)) →
        (Inside n.ends m.ends ∨ ¬Inside m.ends n.ends ∧ Meet n.ends m.ends (toLex (line, col))) ∧
        (n.kind = .file → m.ends = n.ends → m.kind = .file)) ∧
      (((declarationsOf rows filePath).map NodeRow.ends).Nodup →
        (∀ a ∈ declarationsOf rows filePath, ∀ b ∈ declarationsOf rows filePath, a ≠ b →
          ¬Meet a.ends b.ends (toLex (line, col))) →
        ∀ scan : List NodeRow, scan.Perm rows → findByPosition scan filePath line col = some n) := by
  refine ⟨findByPosition_isSome (.refl rows), fun n hn => ?_⟩
  obtain ⟨hmem, hheld, hle⟩ := findByPosition_spec (.refl rows) hn
  refine ⟨hmem, hheld, fun m hm hmheld => ⟨findByPosition_inside (.refl rows) hnest hn hm hmheld, ?_⟩, ?_⟩
  · intro hfile hends
    have hle := hle m hm hmheld
    simp only [ends, Prod.mk.injEq, EmbeddingLike.apply_eq_iff_eq] at hends
    by_contra hkind
    simp [positionOrder, hends, hfile, hkind, Prod.Lex.toLex_le_toLex] at hle
    exact absurd hle (by decide)
  · intro hdistinct hplace scan hscan
    obtain ⟨n', hn'⟩ := Option.isSome_iff_exists.mp ((findByPosition_isSome hscan).mpr ⟨n, hmem, hheld⟩)
    obtain ⟨hmem', hheld', -⟩ := findByPosition_spec hscan hn'
    suffices n' = n by rw [hn', this]
    by_contra hne
    have hin := (findByPosition_inside (.refl rows) hnest hn hmem' hheld').resolve_right
      fun h => hplace n hmem n' hmem' (Ne.symm hne) h.2
    have hin' := (findByPosition_inside hscan hnest hn' hmem hheld).resolve_right
      fun h => hplace n' hmem' n hmem hne h.2
    exact hne (inj_on_of_nodup_map hdistinct hmem' hmem (hin'.antisymm hin))

theorem findByPosition_nested :
    let rows : List NodeRow := [{ id := "outer", endCol := 9 }, { id := "inner", startCol := 2, endCol := 5 }]
    findByPosition rows "" 0 3 = rows[1]? ∧
      ∀ scan : List NodeRow, scan.Perm rows → findByPosition scan "" 0 3 = rows[1]? := by
  have hn : findByPosition [{ id := "outer", endCol := 9 }, { id := "inner", startCol := 2, endCol := 5 }] "" 0 3 =
      some { id := "inner", startCol := 2, endCol := 5 } := by decide +kernel
  exact ⟨hn, ((findByPosition_innermost (by decide +kernel)).2 _ hn).2.2.2 (by decide +kernel) (by decide +kernel)⟩

end GMesh
