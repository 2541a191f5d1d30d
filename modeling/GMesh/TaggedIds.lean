import GMesh.RowWrites

namespace GMesh

def pairChars : List Char → List Char → List Char
  | [], b => '|' :: b
  | c :: a, b => '.' :: c :: pairChars a b

theorem pairChars_inj {a b a' b' : List Char} (h : pairChars a b = pairChars a' b') : a = a' ∧ b = b' := by
  induction a generalizing a' with
  | nil =>
    cases a' with
    | nil =>
      simp only [pairChars, List.cons.injEq, true_and] at h
      exact ⟨rfl, h⟩
    | cons c a' => simp [pairChars] at h
  | cons c a ih =>
    cases a' with
    | nil => simp [pairChars] at h
    | cons c' a' =>
      simp only [pairChars, List.cons.injEq, true_and] at h
      obtain ⟨ha, hb⟩ := ih h.2
      exact ⟨by rw [h.1, ha], hb⟩

/-- Ids that spell out what they are made of, in place of a hash of it. -/
def taggedId (tag : Char) (a b : String) : String := String.ofList (tag :: pairChars a.toList b.toList)

theorem taggedId_inj {tag : Char} {a b a' b' : String} (h : taggedId tag a b = taggedId tag a' b') :
    a = a' ∧ b = b' := by
  have hl := congrArg String.toList h
  simp only [taggedId, String.toList_ofList, List.cons.injEq, true_and] at hl
  obtain ⟨ha, hb⟩ := pairChars_inj hl
  exact ⟨String.toList_inj.mp ha, String.toList_inj.mp hb⟩

theorem ne_taggedId {tag : Char} {x : String} (hx : x.toList.head? ≠ some tag) (a b : String) :
    x ≠ taggedId tag a b := by
  rintro rfl
  simp [taggedId] at hx

def taggedIds : ContainerIds where
  containerId k := taggedId 'c' k.1 k.2
  definesEdgeId := taggedId 'e'
  containerId_injective := fun _ _ h => Prod.ext (taggedId_inj h).1 (taggedId_inj h).2
  definesEdgeId_injective := taggedId_inj

theorem namesNoContainer_untagged {d : Diff} (hu : ∀ n ∈ d.upsertNodes, n.id.toList.head? ≠ some 'c')
    (hx : ∀ id ∈ d.deleteNodeIds, id.toList.head? ≠ some 'c')
    (he : ∀ e ∈ d.upsertEdges, e.id.toList.head? ≠ some 'e' ∧ e.fromId.toList.head? ≠ some 'c')
    (hy : ∀ id ∈ d.deleteEdgeIds, id.toList.head? ≠ some 'e') : d.NamesNoContainer taggedIds where
  upserted n hn k := ne_taggedId (hu n hn) k.1 k.2
  deleted id hid k := ne_taggedId (hx id hid) k.1 k.2
  edge e hem := ⟨fun _ i => ne_taggedId (he e hem).1 _ i, fun k hf => absurd hf (ne_taggedId (he e hem).2 k.1 k.2)⟩
  edgeDeleted id hid _ i := ne_taggedId (hy id hid) _ i

end GMesh
