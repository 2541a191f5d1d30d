import GMesh.KeyedTable

namespace GMesh

open List

section LastWhere

variable {α : Type} {p : α → Bool}

/-- The last element with the property, as repeated writes to one slot leave it. -/
def lastWhere (p : α → Bool) (l : List α) : Option α := l.reverse.find? p

@[simp] theorem lastWhere_nil : lastWhere p [] = none := rfl

theorem lastWhere_append (l m : List α) : lastWhere p (l ++ m) = (lastWhere p m).or (lastWhere p l) := by
  rw [lastWhere, reverse_append, find?_append]
  rfl

theorem lastWhere_cons (a : α) (l : List α) :
    lastWhere p (a :: l) = (lastWhere p l).or (if p a then some a else none) := by
  by_cases ha : p a
  · simp [lastWhere, ha]
  · simp [lastWhere, ha]

theorem lastWhere_map {β : Type} (f : β → α) (l : List β) :
    lastWhere p (l.map f) = (lastWhere (fun b => p (f b)) l).map f := by
  unfold lastWhere
  rw [← map_reverse, find?_map]
  rfl

theorem lastWhere_filterMap {β : Type} (f : β → Option α) (l : List β) :
    lastWhere p (l.filterMap f) = (lastWhere (fun b => (f b).any p) l).bind f := by
  unfold lastWhere
  rw [← filterMap_reverse, find?_filterMap]

variable {l : List α}

theorem mem_of_lastWhere {a : α} (h : lastWhere p l = some a) : a ∈ l ∧ p a :=
  ⟨mem_reverse.mp (mem_of_find?_eq_some h), find?_some h⟩

theorem lastWhere_eq_none_iff : lastWhere p l = none ↔ ∀ a ∈ l, p a = false := by
  unfold lastWhere
  simp

theorem lastWhere_isSome_iff : (lastWhere p l).isSome ↔ ∃ a ∈ l, p a := by
  unfold lastWhere
  simp

theorem lastWhere_eq_some_iff {κ : Type} [DecidableEq κ] {key : α → κ} (hn : (l.map key).Nodup) {k : κ} {a : α} :
    lastWhere (fun b => decide (key b = k)) l = some a ↔ a ∈ l ∧ key a = k := by
  constructor
  · intro h
    obtain ⟨ha, hk⟩ := mem_of_lastWhere h
    exact ⟨ha, of_decide_eq_true hk⟩
  · rintro ⟨ha, rfl⟩
    cases hl : lastWhere (fun b => decide (key b = key a)) l with
    | none => simpa using lastWhere_eq_none_iff.mp hl a ha
    | some b =>
      obtain ⟨hb, hk⟩ := mem_of_lastWhere hl
      rw [inj_on_of_nodup_map hn hb ha (of_decide_eq_true hk)]

end LastWhere

namespace KeyedTable

variable {κ ρ : Type} [DecidableEq κ] {key : ρ → κ}

/-- `DELETE FROM t WHERE key = k`. -/
def erase (t : KeyedTable key) (k : κ) : KeyedTable key := t.filter (fun r => decide (key r ≠ k))

variable {t : KeyedTable key} {r : ρ}

theorem mem_erase {k : κ} : r ∈ t.erase k ↔ r ∈ t ∧ key r ≠ k := by
  unfold erase
  rw [mem_filter, decide_eq_true_iff]

@[simp] theorem find?_erase (t : KeyedTable key) (k j : κ) :
    (t.erase k).find? j = if j = k then none else t.find? j := by
  apply Option.ext
  intro r
  rw [find?_eq_some_iff, mem_erase]
  split
  next h =>
    subst h
    simp only [reduceCtorEq, iff_false]
    exact fun hr => hr.1.2 hr.2
  next h =>
    rw [find?_eq_some_iff]
    constructor
    · exact fun hr => ⟨hr.1.1, hr.2⟩
    · exact fun hr => ⟨⟨hr.1, fun he => h (hr.2.symm.trans he)⟩, hr.2⟩

theorem find?_foldl_erase (ks : List κ) (t : KeyedTable key) (j : κ) :
    (ks.foldl erase t).find? j = if j ∈ ks then none else t.find? j := by
  induction ks generalizing t with
  | nil => simp
  | cons k _ ih =>
    rw [foldl_cons, ih, find?_erase]
    by_cases hj : j = k
    · simp [hj]
    · simp [hj]

theorem find?_foldl_put (rs : List ρ) (t : KeyedTable key) (k : κ) :
    (rs.foldl put t).find? k = (lastWhere (fun r => decide (key r = k)) rs).or (t.find? k) := by
  induction rs generalizing t with
  | nil => simp
  | cons r _ ih =>
    rw [foldl_cons, ih, find?_put, lastWhere_cons, Option.or_assoc]
    by_cases hk : key r = k
    · simp [hk]
    · simp [hk]

theorem mem_foldl_put {rs : List ρ} (hn : (rs.map key).Nodup) :
    r ∈ rs.foldl put t ↔ r ∈ rs ∨ (r ∈ t ∧ ∀ s ∈ rs, key s ≠ key r) := by
  induction rs generalizing t with
  | nil => simp
  | cons _ _ ih =>
    obtain ⟨hs, hn⟩ := nodup_cons.mp hn
    rw [foldl_cons, ih hn, mem_put, mem_cons, forall_mem_cons]
    constructor
    · rintro (hr | ⟨rfl | ⟨hr, hne⟩, hrs⟩)
      · exact .inl (.inr hr)
      · exact .inl (.inl rfl)
      · exact .inr ⟨hr, Ne.symm hne, hrs⟩
    · rintro ((rfl | hr) | ⟨hr, hne, hrs⟩)
      · exact .inr ⟨.inl rfl, fun u hu he => hs (he ▸ mem_map_of_mem hu)⟩
      · exact .inl hr
      · exact .inr ⟨.inr ⟨hr, Ne.symm hne⟩, hrs⟩

/-- `INSERT INTO t SELECT ... ON CONFLICT(key) DO UPDATE`. -/
def copy (t source : KeyedTable key) (pick : ρ → Bool) : KeyedTable key := (source.filter pick).rows.foldl put t

variable {source : KeyedTable key}

theorem mem_copy {pick : ρ → Bool} :
    r ∈ t.copy source pick ↔ (r ∈ source ∧ pick r) ∨ (r ∈ t ∧ ∀ s ∈ source, pick s → key s ≠ key r) := by
  unfold copy
  rw [mem_foldl_put (source.filter pick).nodup]
  refine or_congr mem_filter (and_congr_right fun _ => ?_)
  exact ⟨fun h s hs hp => h s (mem_filter.mpr ⟨hs, hp⟩), fun h s hs => h s (mem_filter.mp hs).1 (mem_filter.mp hs).2⟩

theorem mem_copy_of_forall {ks : List κ} (h : ∀ k ∈ ks, ∃ s ∈ source, key s = k) :
    r ∈ t.copy source (fun s => decide (key s ∈ ks)) ↔ if key r ∈ ks then r ∈ source else r ∈ t := by
  rw [mem_copy, decide_eq_true_iff]
  split
  next hk =>
    obtain ⟨s, hs, hid⟩ := h _ hk
    refine ⟨?_, fun hr => .inl ⟨hr, hk⟩⟩
    rintro (hr | ⟨_, hr⟩)
    · exact hr.1
    · exact absurd hid (hr s hs (decide_eq_true (hid ▸ hk)))
  next hk =>
    constructor
    · rintro (hr | hr)
      · exact absurd hr.2 hk
      · exact hr.1
    · intro hr
      exact .inr ⟨hr, fun s _ hs hid => hk (hid ▸ of_decide_eq_true hs)⟩

theorem find?_copy (t source : KeyedTable key) (pick : ρ → Bool) (k : κ) :
    (t.copy source pick).find? k = ((source.find? k).filter pick).or (t.find? k) := by
  have hlast : lastWhere (fun r => decide (key r = k)) (source.filter pick).rows = (source.filter pick).find? k := by
    apply Option.ext
    intro r
    rw [lastWhere_eq_some_iff (source.filter pick).nodup, find?_eq_some_iff]
    rfl
  unfold copy
  rw [find?_foldl_put, hlast, find?_filter]

theorem find?_foldl_insertIgnore (rs : List ρ) (t : KeyedTable key) (k : κ) :
    (rs.foldl insertIgnore t).find? k = (t.find? k).or (rs.find? (fun r => decide (key r = k))) := by
  induction rs generalizing t with
  | nil => simp
  | cons r _ ih =>
    rw [foldl_cons, ih, find?_insertIgnore]
    by_cases hk : key r = k
    · cases hf : t.find? k with
      | none => simp [hk, hf, contains]
      | some old => simp [hf, contains]
    · simp [hk]

theorem rows_perm {u : KeyedTable key} (h : ∀ k, t.find? k = u.find? k) : t.rows.Perm u.rows := by
  rw [perm_ext_iff_of_nodup t.nodup.of_map u.nodup.of_map]
  intro r
  exact mem_congr h

end KeyedTable

end GMesh
