import Mathlib.Data.List.Basic

namespace GMesh

open List

def Cache (κ ν : Type) := κ → Option ν

namespace Cache

variable {κ ν : Type}

def empty : Cache κ ν := fun _ => none

def insert [DecidableEq κ] (c : Cache κ ν) (k : κ) (v : ν) : Cache κ ν := fun j => if j = k then some v else c j

def Holds (c : Cache κ ν) (f : κ → ν) : Prop := ∀ k v, c k = some v → v = f k

theorem empty_holds (f : κ → ν) : (empty : Cache κ ν).Holds f := fun _ _ h => nomatch h

theorem Holds.insert [DecidableEq κ] {c : Cache κ ν} {f : κ → ν} (h : c.Holds f) (k : κ) : (c.insert k (f k)).Holds f := by
  intro j v hj
  unfold Cache.insert at hj
  split at hj
  next he =>
    cases hj
    rw [he]
  next => exact h j v hj

end Cache

/-- Answers a question from its cache, or works it out and stores the answer. -/
def remember {σ κ ν : Type} [DecidableEq κ] (read : σ → Cache κ ν) (write : σ → Cache κ ν → σ) (k : κ)
    (m : StateM σ ν) : StateM σ ν := do
  match read (← get) k with
  | some v => pure v
  | none =>
    let v ← m
    modify fun s => write s ((read s).insert k v)
    pure v

section Gives

variable {σ α β : Type} {inv : σ → Prop}

/-- A computation whose answer is the same in every state that keeps the invariant. -/
def Gives (inv : σ → Prop) (m : StateM σ α) (a : α) : Prop := ∀ s, inv s → (m s).1 = a ∧ inv (m s).2

namespace Gives

theorem pure (a : α) : Gives inv (Pure.pure a) a := fun _ h => ⟨rfl, h⟩

variable {f : α → StateM σ β} {m : StateM σ α}

theorem bind {a : α} {b : β} (hm : Gives inv m a) (hf : Gives inv (f a) b) : Gives inv (m >>= f) b := by
  intro s hs
  obtain ⟨ha, hinv⟩ := hm s hs
  have h := hf (m s).2 hinv
  rw [← ha] at h
  exact h

theorem congr {a b : α} (hm : Gives inv m a) (h : a = b) : Gives inv m b := h ▸ hm

variable {as : List α}

theorem mapM {g : α → β} (hf : ∀ a ∈ as, Gives inv (f a) (g a)) : Gives inv (as.mapM f) (as.map g) := by
  induction as with
  | nil => exact pure []
  | cons a _ ih =>
    rw [mapM_cons, map_cons]
    have htail := ih fun b hb => hf b (mem_cons_of_mem a hb)
    exact bind (hf a mem_cons_self) (bind htail (pure _))

variable {p : α → StateM σ Bool} {q : α → Bool}

section

variable (hp : ∀ a ∈ as, Gives inv (p a) (q a))

include hp

theorem filterAuxM (kept : List α) : Gives inv (List.filterAuxM p as kept) ((as.filter q).reverse ++ kept) := by
  induction as generalizing kept with
  | nil => exact pure kept
  | cons a _ ih =>
    refine bind (hp a mem_cons_self) ?_
    refine congr (ih (fun b hb => hp b (mem_cons_of_mem a hb)) _) ?_
    cases hq : q a <;> simp [hq]

theorem filterM : Gives inv (as.filterM p) (as.filter q) := by
  have h : Gives inv (as.filterM p) ((as.filter q).reverse ++ []).reverse := bind (filterAuxM hp []) (pure _)
  exact congr h (by simp)

theorem findM? : Gives inv (as.findM? p) (as.find? q) := by
  induction as with
  | nil => exact pure none
  | cons a _ ih =>
    rw [List.findM?, find?_cons]
    refine bind (hp a mem_cons_self) ?_
    cases hq : q a with
    | true => exact pure (some a)
    | false => exact ih fun b hb => hp b (mem_cons_of_mem a hb)

end

theorem foldlM (keeps : β → Prop) {f : β → α → StateM σ β} {g : β → α → β}
    (hf : ∀ b, keeps b → ∀ a ∈ as, Gives inv (f b a) (g b a) ∧ keeps (g b a)) {b : β} (hb : keeps b) :
    Gives inv (as.foldlM f b) (as.foldl g b) ∧ keeps (as.foldl g b) := by
  induction as generalizing b with
  | nil => exact ⟨pure b, hb⟩
  | cons a _ ih =>
    obtain ⟨hfirst, hkept⟩ := hf b hb a mem_cons_self
    obtain ⟨hrest, hlast⟩ := ih (fun b hb a' ha => hf b hb a' (mem_cons_of_mem a ha)) hkept
    exact ⟨bind hfirst hrest, hlast⟩

theorem remember {κ ν : Type} [DecidableEq κ] {read : σ → Cache κ ν} {write : σ → Cache κ ν → σ} {f : κ → ν} {k : κ}
    {m : StateM σ ν} (hread : ∀ s, inv s → (read s).Holds f)
    (hwrite : ∀ s c, inv s → c.Holds f → inv (write s c)) (hm : Gives inv m (f k)) :
    Gives inv (GMesh.remember read write k m) (f k) := by
  intro s hs
  have hget : GMesh.remember read write k m s = (match read s k with
        | some v => Pure.pure v
        | none => m >>= fun v => modify (fun s => write s ((read s).insert k v)) >>= fun _ => Pure.pure v : StateM σ ν)
        s := by
    unfold GMesh.remember
    cases hk : read s k <;> simp [Bind.bind, StateT.bind, MonadState.get, getThe, MonadStateOf.get, StateT.get, Pure.pure, hk]
  rw [hget]
  cases hk : read s k with
  | some v => exact ⟨hread s hs k v hk, hs⟩
  | none =>
    obtain ⟨hv, hinv⟩ := hm s hs
    refine ⟨hv, ?_⟩
    have hstored := hwrite _ _ hinv ((hread _ hinv).insert k)
    rw [← hv] at hstored
    exact hstored

end Gives

end Gives

end GMesh
