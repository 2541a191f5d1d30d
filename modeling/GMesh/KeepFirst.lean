import Mathlib.Data.List.Nodup

namespace GMesh

open List

variable {α κ : Type} [DecidableEq κ] {key : α → κ}

/-- The rows whose key is met for the first time, as a loop over seen keys keeps them. -/
def keepFirst (key : α → κ) (seen : List κ) : List α → List α
  | [] => []
  | a :: as => if key a ∈ seen then keepFirst key seen as else a :: keepFirst key (key a :: seen) as

theorem keepFirst_sublist (seen : List κ) (as : List α) : (keepFirst key seen as).Sublist as := by
  induction as generalizing seen with
  | nil => simp [keepFirst]
  | cons a _ ih =>
    rw [keepFirst]
    split
    next => exact (ih seen).cons a
    next => exact (ih (key a :: seen)).cons_cons a

variable {seen : List κ} {as : List α}

theorem keepFirst_congr {seen' : List κ} (h : ∀ a ∈ as, key a ∈ seen ↔ key a ∈ seen') :
    keepFirst key seen as = keepFirst key seen' as := by
  induction as generalizing seen seen' with
  | nil => rfl
  | cons a as ih =>
    have htail : ∀ b ∈ as, key b ∈ seen ↔ key b ∈ seen' := (forall_mem_cons.mp h).2
    have hcons : ∀ b ∈ as, key b ∈ key a :: seen ↔ key b ∈ key a :: seen' := by
      intro b hb
      rw [mem_cons, mem_cons, htail b hb]
    simp only [keepFirst, h a mem_cons_self, ih htail, ih hcons]

variable {a : α}

theorem mem_of_mem_keepFirst (h : a ∈ keepFirst key seen as) : a ∈ as :=
  (keepFirst_sublist seen as).subset h

theorem keepFirst_key_not_seen (h : a ∈ keepFirst key seen as) : key a ∉ seen := by
  induction as generalizing seen with
  | nil => simp [keepFirst] at h
  | cons _ _ ih =>
    rw [keepFirst] at h
    split at h
    next => exact ih h
    next hb =>
      rcases mem_cons.mp h with rfl | h
      · exact hb
      · exact fun hs => ih h (mem_cons_of_mem _ hs)

theorem keepFirst_keys_nodup (seen : List κ) (as : List α) : ((keepFirst key seen as).map key).Nodup := by
  induction as generalizing seen with
  | nil => simp [keepFirst]
  | cons a _ ih =>
    rw [keepFirst]
    split
    next => exact ih seen
    next =>
      rw [map_cons, nodup_cons]
      refine ⟨?_, ih (key a :: seen)⟩
      intro hm
      obtain ⟨b, hb, hk⟩ := mem_map.mp hm
      exact keepFirst_key_not_seen hb (hk ▸ mem_cons_self)

theorem exists_mem_keepFirst (ha : a ∈ as) (hs : key a ∉ seen) : ∃ b ∈ keepFirst key seen as, key b = key a := by
  induction as generalizing seen with
  | nil => simp at ha
  | cons b _ ih =>
    rw [keepFirst]
    split
    next hb =>
      rcases mem_cons.mp ha with rfl | ha
      · exact absurd hb hs
      · exact ih ha hs
    next hb =>
      by_cases hk : key b = key a
      · exact ⟨b, mem_cons_self, hk⟩
      · rcases mem_cons.mp ha with rfl | ha
        · exact absurd rfl hk
        · have hs' : key a ∉ key b :: seen := by simp [hs, Ne.symm hk]
          obtain ⟨c, hc, hck⟩ := ih ha hs'
          exact ⟨c, mem_cons_of_mem _ hc, hck⟩

theorem mem_keepFirst_unseen [DecidableEq α] {seen : List α} :
    a ∈ keepFirst (fun x => x) seen as ↔ a ∈ as ∧ a ∉ seen := by
  constructor
  · exact fun h => ⟨mem_of_mem_keepFirst h, keepFirst_key_not_seen h⟩
  · rintro ⟨ha, hs⟩
    obtain ⟨b, hb, rfl⟩ : ∃ b ∈ keepFirst (fun x => x) seen as, b = a := exists_mem_keepFirst ha hs
    exact hb

theorem keepFirst_perm {bs : List α} (hperm : as.Perm bs) (hkey : ∀ a ∈ as, ∀ b ∈ as, key a = key b → a = b) :
    (keepFirst key [] as).Perm (keepFirst key [] bs) := by
  have hmem : ∀ {l : List α}, (∀ a ∈ l, a ∈ as) → ∀ a, a ∈ keepFirst key [] l ↔ a ∈ l := by
    intro l hl a
    refine ⟨mem_of_mem_keepFirst, fun ha => ?_⟩
    obtain ⟨b, hb, hk⟩ : ∃ b ∈ keepFirst key [] l, key b = key a := exists_mem_keepFirst ha not_mem_nil
    rw [← hkey b (hl b (mem_of_mem_keepFirst hb)) a (hl a ha) hk]
    exact hb
  refine (perm_ext_iff_of_nodup (keepFirst_keys_nodup [] as).of_map (keepFirst_keys_nodup [] bs).of_map).mpr ?_
  intro a
  rw [hmem (fun _ ha => ha), hmem (fun _ hb => hperm.mem_iff.mpr hb), hperm.mem_iff]

theorem keepFirst_first {r : α → α → Prop} {b : α} (hs : as.Pairwise r) (ha : a ∈ keepFirst key seen as)
    (hb : b ∈ as) (hk : key b = key a) : a = b ∨ r a b := by
  induction as generalizing seen with
  | nil => simp at hb
  | cons _ _ ih =>
    have hc := pairwise_cons.mp hs
    have hns := keepFirst_key_not_seen ha
    rw [keepFirst] at ha
    split at ha
    next hseen =>
      rcases mem_cons.mp hb with rfl | hb
      · exact absurd (hk ▸ hseen) hns
      · exact ih hc.2 ha hb
    next =>
      rcases mem_cons.mp ha with rfl | ha
      · rcases mem_cons.mp hb with rfl | hb
        · exact .inl rfl
        · exact .inr (hc.1 b hb)
      · rcases mem_cons.mp hb with rfl | hb
        · exact absurd (hk ▸ mem_cons_self) (keepFirst_key_not_seen ha)
        · exact ih hc.2 ha hb

end GMesh
