import Mathlib.Data.List.Nodup
import Mathlib.Data.List.Dedup

namespace GMesh

theorem foldl_adds {δ β α : Type} {f : δ → β → δ} {P : δ → α → Prop} {Q : β → α → Prop}
    (h : ∀ d b x, P (f d b) x ↔ P d x ∨ Q b x) (l : List β) (d : δ) (x : α) :
    P (l.foldl f d) x ↔ P d x ∨ ∃ b ∈ l, Q b x := by
  induction l generalizing d with
  | nil => simp
  | cons b l ih =>
    rw [List.foldl_cons, ih, h, or_assoc]
    simp

open List Option

theorem countP_lt {α : Type} {p q : α → Bool} {l : List α} (hpq : ∀ a ∈ l, p a → q a) {a : α}
    (ha : a ∈ l) (hq : q a) (hp : p a = false) : l.countP p < l.countP q := by
  have hsub : l.filter p = (l.filter q).filter p := by
    rw [List.filter_filter]
    refine filter_congr fun b hb => ?_
    cases hb' : p b <;> simp [hpq b hb, hb']
  rw [countP_eq_length_filter, countP_eq_length_filter, hsub, length_filter_lt_length_iff_exists]
  exact ⟨a, mem_filter.mpr ⟨ha, hq⟩, by simp [hp]⟩

/-- The rows of a table with a primary key, in insertion order. -/
structure KeyedTable {κ ρ : Type} (key : ρ → κ) where
  rows : List ρ
  nodup : (rows.map key).Nodup

namespace KeyedTable

variable {κ ρ : Type} {key : ρ → κ}

def empty : KeyedTable key := ⟨[], by simp⟩

instance : EmptyCollection (KeyedTable key) := ⟨empty⟩

instance : Membership ρ (KeyedTable key) := ⟨fun t r => r ∈ t.rows⟩

instance [DecidableEq ρ] (r : ρ) (t : KeyedTable key) : Decidable (r ∈ t) :=
  inferInstanceAs (Decidable (r ∈ t.rows))

variable {t : KeyedTable key} {r s : ρ}

theorem mem_def : r ∈ t ↔ r ∈ t.rows := .rfl

@[simp] theorem rows_empty : (∅ : KeyedTable key).rows = [] := rfl

theorem key_injective (t : KeyedTable key) (hr : r ∈ t) (hs : s ∈ t) (h : key r = key s) : r = s :=
  inj_on_of_nodup_map t.nodup hr hs h

theorem key_mem_filter {p : ρ → Bool} (hr : r ∈ t) : key r ∈ (t.rows.filter p).map key ↔ p r := by
  rw [List.mem_map]
  constructor
  · rintro ⟨s, hs, hkey⟩
    obtain ⟨hs, hp⟩ := mem_filter.mp hs
    rwa [← t.key_injective hs hr hkey]
  · exact fun hp => ⟨r, mem_filter.mpr ⟨hr, hp⟩, rfl⟩

/-- `DELETE FROM t WHERE NOT keep`. -/
def filter (t : KeyedTable key) (keep : ρ → Bool) : KeyedTable key where
  rows := t.rows.filter keep
  nodup := (List.Sublist.map key filter_sublist).nodup t.nodup

/-- `UPDATE t SET ...` of columns outside the key. -/
def update (t : KeyedTable key) (f : ρ → ρ) (hf : ∀ r, key (f r) = key r) : KeyedTable key where
  rows := t.rows.map f
  nodup := by
    have hm : (t.rows.map f).map key = t.rows.map key := by
      rw [List.map_map]
      exact map_congr_left fun r _ => hf r
    rw [hm]
    exact t.nodup

theorem mem_filter {keep : ρ → Bool} : r ∈ t.filter keep ↔ r ∈ t ∧ keep r :=
  List.mem_filter

theorem mem_update {f : ρ → ρ} {hf : ∀ r, key (f r) = key r} : s ∈ t.update f hf ↔ ∃ r ∈ t, f r = s :=
  mem_map

section Lookup

variable [DecidableEq κ]

/-- `SELECT * FROM t WHERE key = k`. -/
def find? (t : KeyedTable key) (k : κ) : Option ρ := t.rows.find? (fun r => decide (key r = k))

def contains (t : KeyedTable key) (k : κ) : Bool := (t.find? k).isSome

variable {t : KeyedTable key} {k : κ} {r : ρ}

theorem find?_eq_some_iff : t.find? k = some r ↔ r ∈ t ∧ key r = k := by
  constructor
  · intro h
    exact ⟨mem_of_find?_eq_some h, by simpa using find?_some h⟩
  · rintro ⟨hr, rfl⟩
    cases hf : t.find? (key r) with
    | none =>
      have hn := find?_eq_none.mp hf r hr
      simp at hn
    | some s =>
      have hs : s ∈ t := mem_of_find?_eq_some hf
      have hk : key s = key r := by simpa using find?_some hf
      rw [t.key_injective hs hr hk]

theorem find?_key (hr : r ∈ t) : t.find? (key r) = some r :=
  find?_eq_some_iff.mpr ⟨hr, rfl⟩

theorem find?_eq_none_iff : t.find? k = none ↔ ∀ r ∈ t, key r ≠ k := by
  rw [find?, find?_eq_none]
  simp only [decide_eq_true_eq]
  rfl

theorem contains_iff : t.contains k ↔ ∃ r ∈ t, key r = k := by
  rw [contains, isSome_iff_exists]
  exact exists_congr fun _ => find?_eq_some_iff

theorem contains_eq_false_iff : t.contains k = false ↔ ∀ r ∈ t, key r ≠ k := by
  rw [contains, isSome_eq_false_iff, isNone_iff_eq_none, find?_eq_none_iff]

@[simp] theorem find?_empty (k : κ) : (∅ : KeyedTable key).find? k = none := rfl

theorem mem_iff_find? : r ∈ t ↔ t.find? (key r) = some r :=
  ⟨find?_key, fun h => (find?_eq_some_iff.mp h).1⟩

theorem mem_congr {u : KeyedTable key} (h : ∀ k, t.find? k = u.find? k) : r ∈ t ↔ r ∈ u := by
  rw [mem_iff_find?, mem_iff_find?, h]

end Lookup

section Write

variable [DecidableEq κ]

/-- `INSERT ... ON CONFLICT(key) DO UPDATE` of every column. -/
def put (t : KeyedTable key) (r : ρ) : KeyedTable key where
  rows := if t.contains (key r) then t.rows.map (fun s => if key s = key r then r else s)
    else t.rows ++ [r]
  nodup := by
    split
    next h =>
      have hm : (t.rows.map (fun s => if key s = key r then r else s)).map key = t.rows.map key := by
        rw [List.map_map]
        apply map_congr_left
        intro s _
        simp only [Function.comp_apply]
        split
        next he => exact he.symm
        next => rfl
      rw [hm]
      exact t.nodup
    next h =>
      have hn := contains_eq_false_iff.mp (Bool.eq_false_iff.mpr h)
      rw [map_append, map_singleton, nodup_append]
      refine ⟨t.nodup, by simp, ?_⟩
      intro a ha b hb
      obtain ⟨s, hs, rfl⟩ := mem_map.mp ha
      rw [mem_singleton.mp hb]
      exact hn s hs

/-- `INSERT ... ON CONFLICT DO NOTHING`. -/
def insertIgnore (t : KeyedTable key) (r : ρ) : KeyedTable key :=
  if t.contains (key r) then t else t.put r

variable {t : KeyedTable key}

theorem mem_put {r : ρ} : s ∈ t.put r ↔ s = r ∨ (s ∈ t ∧ key s ≠ key r) := by
  simp only [mem_def, put]
  split
  next h =>
    obtain ⟨old, hold, hk⟩ := contains_iff.mp h
    constructor
    · intro hs
      obtain ⟨u, hu, he⟩ := mem_map.mp hs
      split at he
      next => exact .inl he.symm
      next hne => exact .inr ⟨he ▸ hu, he ▸ hne⟩
    · rintro (rfl | ⟨hs, hne⟩)
      · exact mem_map.mpr ⟨old, hold, by simp [hk]⟩
      · exact mem_map.mpr ⟨s, hs, by simp [hne]⟩
  next h =>
    have hn := contains_eq_false_iff.mp (Bool.eq_false_iff.mpr h)
    constructor
    · intro hs
      rcases mem_append.mp hs with hs | hs
      · exact .inr ⟨hs, hn s hs⟩
      · exact .inl (mem_singleton.mp hs)
    · rintro (rfl | ⟨hs, _⟩)
      · simp
      · exact mem_append_left _ hs

@[simp] theorem find?_put (t : KeyedTable key) (r : ρ) (k : κ) :
    (t.put r).find? k = if key r = k then some r else t.find? k := by
  split
  next h => exact find?_eq_some_iff.mpr ⟨mem_put.mpr (.inl rfl), h⟩
  next h =>
    apply Option.ext
    intro s
    rw [find?_eq_some_iff, find?_eq_some_iff, mem_put]
    constructor
    · rintro ⟨rfl | ⟨hs, _⟩, hk⟩
      · exact absurd hk h
      · exact ⟨hs, hk⟩
    · rintro ⟨hs, hk⟩
      exact ⟨.inr ⟨hs, fun he => h (he.symm.trans hk)⟩, hk⟩

@[simp] theorem find?_insertIgnore (t : KeyedTable key) (r : ρ) (k : κ) :
    (t.insertIgnore r).find? k = if key r = k ∧ t.contains k = false then some r else t.find? k := by
  unfold insertIgnore
  split
  next h =>
    by_cases hk : key r = k
    · subst hk; simp [h]
    · simp [hk]
  next h =>
    by_cases hk : key r = k
    · subst hk
      have hf := Bool.eq_false_iff.mpr h
      simp [hf]
    · simp [hk]

@[simp] theorem find?_filter (t : KeyedTable key) (keep : ρ → Bool) (k : κ) :
    (t.filter keep).find? k = (t.find? k).filter keep := by
  apply Option.ext
  intro r
  rw [find?_eq_some_iff, filter_eq_some_iff, find?_eq_some_iff, mem_filter]
  tauto

@[simp] theorem find?_update (t : KeyedTable key) (f : ρ → ρ) (hf : ∀ r, key (f r) = key r) (k : κ) :
    (t.update f hf).find? k = (t.find? k).map f := by
  apply Option.ext
  intro s
  rw [find?_eq_some_iff, mem_update, map_eq_some_iff]
  constructor
  · rintro ⟨⟨r, hr, rfl⟩, hk⟩
    exact ⟨r, find?_eq_some_iff.mpr ⟨hr, (hf r).symm.trans hk⟩, rfl⟩
  · rintro ⟨r, hr, rfl⟩
    obtain ⟨hm, hk⟩ := find?_eq_some_iff.mp hr
    exact ⟨⟨r, hm, rfl⟩, (hf r).trans hk⟩

theorem mem_of_insertIgnore {r : ρ} (h : s ∈ t.insertIgnore r) : s = r ∨ s ∈ t := by
  rw [mem_iff_find?, find?_insertIgnore] at h
  split at h
  next => exact .inl (some.inj h).symm
  next => exact .inr (mem_iff_find?.mpr h)

theorem mem_insertIgnore {r : ρ} (hs : s ∈ t) : s ∈ t.insertIgnore r := by
  unfold insertIgnore
  split
  next => exact hs
  next hc =>
    refine mem_put.mpr (.inr ⟨hs, ?_⟩)
    intro hk
    exact hc (contains_iff.mpr ⟨s, hs, hk⟩)

end Write

end KeyedTable

end GMesh
