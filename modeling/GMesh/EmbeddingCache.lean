import Mathlib.Data.List.Sort
import GMesh.TableWrites

namespace GMesh

open KeyedTable Option List

structure ModelRow (Φ : Type) where
  id : Nat
  fingerprint : Φ
  lastUsed : Int
  deriving DecidableEq, Repr

structure CacheEntry (η F : Type) where
  modelId : Nat
  textHash : η
  vector : List F
  lastUsed : Int
  deriving DecidableEq, Repr

def CacheEntry.key {η F : Type} (e : CacheEntry η F) : Nat × η := (e.modelId, e.textHash)

structure EmbeddingCache (Φ η F : Type) where
  models : KeyedTable (@ModelRow.id Φ) := ∅
  entries : KeyedTable (@CacheEntry.key η F) := ∅

def modelRetentionDays : Int := 30

namespace EmbeddingCache

variable {Φ η F : Type} [DecidableEq Φ] [DecidableEq η] (dim : Nat) (c : EmbeddingCache Φ η F)

def nextId : Nat := (c.models.rows.map (·.id)).foldr max 0 + 1

variable (fingerprint : Φ) (today : Int)

def useModel (r : ModelRow Φ) : ModelRow Φ :=
  if r.fingerprint = fingerprint then { r with lastUsed := today } else r

theorem useModel_id (r : ModelRow Φ) : (useModel fingerprint today r).id = r.id := by
  unfold useModel
  split <;> rfl

def byFingerprint : Option (ModelRow Φ) :=
  c.models.rows.find? fun r => r.fingerprint = fingerprint

def modelId : EmbeddingCache Φ η F × Option Nat :=
  let inserted := if (c.byFingerprint fingerprint).isSome then c.models
    else c.models.insertIgnore ⟨c.nextId, fingerprint, today⟩
  let used : EmbeddingCache Φ η F :=
    { c with models := inserted.update (useModel fingerprint today) (useModel_id fingerprint today) }
  (used, (used.byFingerprint fingerprint).map (·.id))

def decode (vector : List F) : Option (List F) := if vector.length = dim then some vector else none

variable (model : Nat)

def hit (hash : η) : Option (List F) :=
  (c.entries.find? (model, hash)).bind fun e => decode dim e.vector

def touchEntry (hashes : List η) (today : Int) (e : CacheEntry η F) : CacheEntry η F :=
  if e.modelId = model ∧ e.textHash ∈ hashes then { e with lastUsed := today } else e

omit [DecidableEq Φ] in
theorem touchEntry_key (hashes : List η) (today : Int) (e : CacheEntry η F) :
    (touchEntry model hashes today e).key = e.key := by
  unfold touchEntry
  split <;> rfl

/-- The vectors of the texts. A hit is marked as used, which may fail. -/
def lookup (hashes : List η) (today : Int) (touches : Bool) :
    EmbeddingCache Φ η F × List (Option (List F)) :=
  (if touches then
      { c with entries := c.entries.update (touchEntry model hashes today) (touchEntry_key model hashes today) }
    else c,
    hashes.map (c.hit dim model))

def useId (today : Int) (r : ModelRow Φ) : ModelRow Φ :=
  if r.id = model then { r with lastUsed := today } else r

omit [DecidableEq Φ] in
theorem useId_id (today : Int) (r : ModelRow Φ) : (useId model today r).id = r.id := by
  unfold useId
  split <;> rfl

def insertEntry (today : Int) (t : KeyedTable (@CacheEntry.key η F))
    (new : η × List F) : KeyedTable (@CacheEntry.key η F) :=
  t.insertIgnore ⟨model, new.1, new.2, today⟩

def insert (new : List (η × List F)) (today : Int) :
    EmbeddingCache Φ η F where
  models := c.models.update (useId model today) (useId_id model today)
  entries := (new.filter fun v => v.2.length = dim).foldl (insertEntry model today) c.entries

def isRetained (current : Nat) (today : Int) (r : ModelRow Φ) : Bool :=
  !(decide (r.lastUsed < today - modelRetentionDays) && decide (r.id ≠ current))

/-- Drops the models that were long unused, but the caller's, and then the `evict` entries used least recently. -/
def gc (current : Nat) (evict : Nat) (today : Int) : EmbeddingCache Φ η F :=
  let models := c.models.filter (isRetained current today)
  let entries := if models.rows.length < c.models.rows.length then c.entries.filter (fun e => models.contains e.modelId)
    else c.entries
  let evicted := ((entries.rows.insertionSort fun e f => e.lastUsed ≤ f.lastUsed).take evict).map CacheEntry.key
  { models, entries := entries.filter fun e => e.key ∉ evicted }

end EmbeddingCache

inductive CacheCall (η F : Type)
  | openCache
  | lookup (hashes : List η) (touches : Bool)
  | insert (new : List (η × List F))
  | gc (evict : Nat)
  deriving DecidableEq, Repr

structure CacheStep (η F : Type) where
  process : Nat
  day : Int
  call : CacheCall η F
  deriving DecidableEq, Repr

/-- The shared file and the model id that each process got when it opened it. -/
structure CacheState (Φ η F : Type) where
  cache : EmbeddingCache Φ η F := {}
  modelId : Nat → Option Nat := fun _ => none

namespace CacheState

variable {Φ η F : Type} [DecidableEq Φ] [DecidableEq η] (fp : Nat → Φ) (dim : Nat) (s : CacheState Φ η F)
  (a : CacheStep η F)

/-- A process opens the cache once and makes no other call before. -/
def step : CacheState Φ η F :=
  match a.call, s.modelId a.process with
  | .openCache, none =>
    let opened := s.cache.modelId (fp a.process) a.day
    { cache := opened.1, modelId := Function.update s.modelId a.process opened.2 }
  | .lookup hashes touches, some model => { s with cache := (s.cache.lookup dim model hashes a.day touches).1 }
  | .insert new, some model => { s with cache := s.cache.insert dim model new a.day }
  | .gc evict, some model => { s with cache := s.cache.gc model evict a.day }
  | _, _ => s

def returned : List (η × List F) :=
  match a.call, s.modelId a.process with
  | .lookup hashes _, some model =>
    (hashes.zip (s.cache.lookup dim model hashes a.day false).2).filterMap fun h => h.2.map fun v => (h.1, v)
  | _, _ => []

def handedOver : List (η × List F) :=
  match a.call, s.modelId a.process with
  | .insert new, some _ => new
  | _, _ => []

def KeepsModel : Prop :=
  match a.call with
  | .lookup _ _ | .insert _ =>
    ∀ model, s.modelId a.process = some model → (s.cache.models.find? model).map (·.fingerprint) = some (fp a.process)
  | _ => True

end CacheState

abbrev CacheRun (η F : Type) := List (CacheStep η F)

namespace CacheRun

variable {Φ η F : Type} [DecidableEq Φ] [DecidableEq η] (fp : Nat → Φ) (dim : Nat)

def state : CacheRun η F → CacheState Φ η F
  | [] => {}
  | a :: before => (state before).step fp dim a

def returned : CacheRun η F → List (Nat × η × List F)
  | [] => []
  | a :: before => ((state fp dim before).returned dim a).map (a.process, ·) ++ returned before

def handedOver : CacheRun η F → List (Nat × η × List F)
  | [] => []
  | a :: before => ((state fp dim before).handedOver a).map (a.process, ·) ++ handedOver before

def KeepsModels : CacheRun η F → Prop
  | [] => True
  | a :: before => KeepsModels before ∧ (state fp dim before).KeepsModel fp a

end CacheRun

namespace EmbeddingCache

variable {Φ η F : Type} {dim : Nat} {c : EmbeddingCache Φ η F}

def means (c : EmbeddingCache Φ η F) (model : Nat) : Option Φ := (c.models.find? model).map (·.fingerprint)

theorem means_update {f : ModelRow Φ → ModelRow Φ} (hf : ∀ r, (f r).id = r.id)
    (hfp : ∀ r, (f r).fingerprint = r.fingerprint) (models : KeyedTable (@ModelRow.id Φ)) (model : Nat) :
    ((models.update f hf).find? model).map (·.fingerprint) = (models.find? model).map (·.fingerprint) := by
  rw [find?_update, Option.map_map]
  congr 1
  funext r
  exact hfp r

theorem means_modelId [DecidableEq Φ] {fingerprint : Φ} {today : Int} {model : Nat} {g : Φ} (h : c.means model = some g) :
    (c.modelId fingerprint today).1.means model = some g := by
  have hkept : ∀ r, (useModel fingerprint today r).fingerprint = r.fingerprint := by
    intro r
    unfold useModel
    split <;> rfl
  unfold means modelId
  rw [means_update _ hkept]
  split
  next => exact h
  next =>
    obtain ⟨r, hr, hg⟩ := map_eq_some_iff.mp h
    have hc : c.models.contains model := by simp [KeyedTable.contains, hr]
    rw [find?_insertIgnore, if_neg (by simp [hc]), hr]
    simpa using hg

variable [DecidableEq η] {e : CacheEntry η F}

theorem means_insert (model : Nat) (new : List (η × List F)) (today : Int) (m : Nat) :
    (c.insert dim model new today).means m = c.means m := by
  refine means_update (useId_id model today) ?_ c.models m
  intro r
  unfold useId
  split <;> rfl

theorem mem_foldl_insertEntry {model : Nat} {today : Int} {new : List (η × List F)}
    {t : KeyedTable (@CacheEntry.key η F)} (he : e ∈ new.foldl (insertEntry model today) t) :
    e ∈ t ∨ e.modelId = model ∧ (e.textHash, e.vector) ∈ new := by
  induction new generalizing t with
  | nil => exact .inl he
  | cons v _ ih =>
    rcases ih he with hold | ⟨hmodel, hmem⟩
    · unfold insertEntry KeyedTable.insertIgnore at hold
      split at hold
      next => exact .inl hold
      next =>
        rcases mem_put.mp hold with rfl | ⟨hold, _⟩
        · exact .inr ⟨rfl, mem_cons_self⟩
        · exact .inl hold
    · exact .inr ⟨hmodel, mem_cons_of_mem v hmem⟩

theorem means_gc {current evict : Nat} {today : Int} (he : e ∈ (c.gc current evict today).entries) :
    e ∈ c.entries ∧ ∀ g, c.means e.modelId = some g → (c.gc current evict today).means e.modelId = some g := by
  have hkept : e ∈ c.entries ∧ ∀ r, c.models.find? e.modelId = some r → isRetained current today r := by
    have hleft := (KeyedTable.mem_filter.mp he).1
    split at hleft
    next =>
      obtain ⟨hmem, hmodel⟩ := KeyedTable.mem_filter.mp hleft
      refine ⟨hmem, fun r hr => ?_⟩
      obtain ⟨m, hm, hid⟩ := contains_iff.mp hmodel
      obtain ⟨hstored, hretained⟩ := KeyedTable.mem_filter.mp hm
      have hfound := find?_eq_some_iff.mpr ⟨hstored, hid⟩
      rw [hr] at hfound
      rwa [some.inj hfound]
    next hnone =>
      refine ⟨hleft, fun r hr => ?_⟩
      have hlen : (c.models.rows.filter (isRetained current today)).length = c.models.rows.length := by
        have hle := List.length_filter_le (isRetained current today) c.models.rows
        have hge : ¬(c.models.rows.filter (isRetained current today)).length < c.models.rows.length := hnone
        omega
      exact List.length_filter_eq_length_iff.mp hlen r (find?_eq_some_iff.mp hr).1
  refine ⟨hkept.1, fun g hg => ?_⟩
  obtain ⟨r, hr, hg⟩ := map_eq_some_iff.mp hg
  show ((c.models.filter (isRetained current today)).find? e.modelId).map (·.fingerprint) = some g
  rw [KeyedTable.find?_filter, hr, filter_some, if_pos (hkept.2 r hr), map_some, hg]

end EmbeddingCache

namespace CacheState

variable {Φ η F : Type} [DecidableEq Φ] [DecidableEq η] {fp : Nat → Φ} {dim : Nat} {s : CacheState Φ η F}

/-- Every entry was handed over by a process of the model its id means. -/
def Owned (fp : Nat → Φ) (s : CacheState Φ η F) (handed : List (Nat × η × List F)) : Prop :=
  ∀ e ∈ s.cache.entries, ∃ q, s.cache.means e.modelId = some (fp q) ∧ (q, e.textHash, e.vector) ∈ handed

variable {handed : List (Nat × η × List F)} {a : CacheStep η F}

omit [DecidableEq Φ] [DecidableEq η] in
theorem Owned.of_kept (hs : s.Owned fp handed) {t : CacheState Φ η F}
    (ht : ∀ e ∈ t.cache.entries, ∃ e' ∈ s.cache.entries, e'.key = e.key ∧ e'.vector = e.vector ∧
      ∀ g, s.cache.means e.modelId = some g → t.cache.means e.modelId = some g) : t.Owned fp handed := by
  intro e he
  obtain ⟨e', he', hkey, hvector, hmeans⟩ := ht e he
  obtain ⟨q, hq, hmem⟩ := hs e' he'
  obtain ⟨hmodel, hhash⟩ := Prod.mk.inj hkey
  rw [hmodel] at hq
  rw [hhash, hvector] at hmem
  exact ⟨q, hmeans _ hq, hmem⟩

omit [DecidableEq Φ] in
theorem Owned.lookup (hs : s.Owned fp handed) (model : Nat) (hashes : List η) (day : Int) (touches : Bool) :
    Owned fp { s with cache := (s.cache.lookup dim model hashes day touches).1 } handed := by
  refine hs.of_kept fun e he => ?_
  cases touches with
  | false => exact ⟨e, he, rfl, rfl, fun _ hg => hg⟩
  | true =>
    obtain ⟨e', he', rfl⟩ := mem_map.mp he
    refine ⟨e', he', (EmbeddingCache.touchEntry_key model hashes day e').symm, ?_, fun _ hg => hg⟩
    unfold EmbeddingCache.touchEntry
    split <;> rfl

omit [DecidableEq Φ] in
theorem Owned.insert (hs : s.Owned fp handed) {p model : Nat} (hp : s.cache.means model = some (fp p))
    (new : List (η × List F)) (day : Int) :
    Owned fp { s with cache := s.cache.insert dim model new day } (new.map (p, ·) ++ handed) := by
  intro e he
  rw [EmbeddingCache.means_insert]
  rcases EmbeddingCache.mem_foldl_insertEntry he with hold | ⟨hmodel, hnew⟩
  · obtain ⟨q, hq, hmem⟩ := hs e hold
    exact ⟨q, hq, mem_append_right _ hmem⟩
  · rw [hmodel]
    exact ⟨p, hp, mem_append_left _ (mem_map_of_mem (mem_filter.mp hnew).1)⟩

/-- Every call leaves each entry with a process of its model. -/
theorem Owned.step (hs : s.Owned fp handed) (ha : s.KeepsModel fp a) :
    (s.step fp dim a).Owned fp ((s.handedOver a).map (a.process, ·) ++ handed) := by
  obtain ⟨p, day, call⟩ := a
  unfold CacheState.step handedOver
  cases hp : s.modelId p with
  | none =>
    cases call with
    | openCache => exact hs.of_kept fun e he => ⟨e, he, rfl, rfl, fun g hg => EmbeddingCache.means_modelId hg⟩
    | lookup hashes touches => exact hs
    | insert new => exact hs
    | gc evict => exact hs
  | some model =>
    cases call with
    | openCache => exact hs
    | lookup hashes touches => exact hs.lookup model hashes day touches
    | insert new => exact hs.insert (ha model hp) new day
    | gc evict =>
      refine hs.of_kept fun e he => ?_
      obtain ⟨hold, hmeans⟩ := EmbeddingCache.means_gc he
      exact ⟨e, hold, rfl, rfl, hmeans⟩

omit [DecidableEq Φ] in
/-- A vector that a call returns was handed over by a process of the same model. -/
theorem Owned.returned (hs : s.Owned fp handed) (ha : s.KeepsModel fp a) {h : η} {v : List F}
    (hv : (h, v) ∈ s.returned dim a) : ∃ q, fp q = fp a.process ∧ (q, h, v) ∈ handed := by
  obtain ⟨p, day, call⟩ := a
  unfold CacheState.returned at hv
  cases hp : s.modelId p with
  | none => cases call <;> simp [hp] at hv
  | some model =>
    cases call with
    | lookup hashes touches =>
      simp only [hp] at hv
      obtain ⟨⟨h', found⟩, hzip, hfound⟩ := mem_filterMap.mp hv
      obtain ⟨v', hv', heq⟩ := map_eq_some_iff.mp hfound
      obtain ⟨hh, hvv⟩ := Prod.mk.inj heq
      have hhit : s.cache.hit dim model h = some v := by
        have hall : (h, some v) ∈ hashes.map fun h => (h, s.cache.hit dim model h) := by
          rw [map_prod_left_eq_zip, ← hh, ← hvv, ← hv']
          exact hzip
        obtain ⟨k, _, heq⟩ := mem_map.mp hall
        obtain ⟨hk, hhit⟩ := Prod.mk.inj heq
        rw [← hk, hhit]
      obtain ⟨e, he, hdecode⟩ := bind_eq_some_iff.mp hhit
      obtain ⟨hmem, hkey⟩ := find?_eq_some_iff.mp he
      obtain ⟨hmodel, hhash⟩ := Prod.mk.inj hkey
      obtain ⟨q, hq, hhanded⟩ := hs e hmem
      have hvector : e.vector = v := by
        unfold EmbeddingCache.decode at hdecode
        split at hdecode
        next => exact some.inj hdecode
        next => simp at hdecode
      have hown : s.cache.means model = some (fp p) := ha model hp
      rw [hmodel, hown] at hq
      rw [hhash, hvector] at hhanded
      exact ⟨q, (some.inj hq).symm, hhanded⟩
    | openCache => simp at hv
    | insert new => simp at hv
    | gc evict => simp at hv

end CacheState

namespace CacheRun

variable {Φ η F : Type} [DecidableEq Φ] [DecidableEq η] {fp : Nat → Φ} {dim : Nat} {run : CacheRun η F}
  (hc : run.KeepsModels fp dim)

include hc

theorem owned : (run.state fp dim).Owned fp (run.handedOver fp dim) := by
  induction run with
  | nil => simp [CacheState.Owned, state, KeyedTable.mem_def]
  | cons _ _ ih => exact (ih hc.1).step hc.2

theorem mem_returned {p : Nat} {h : η} {v : List F} (hv : (p, h, v) ∈ run.returned fp dim) :
    ∃ q, fp q = fp p ∧ (q, h, v) ∈ run.handedOver fp dim := by
  induction run with
  | nil => simp [returned] at hv
  | cons _ _ ih =>
    rcases mem_append.mp hv with hv | hv
    · obtain ⟨⟨h', v'⟩, hret, heq⟩ := mem_map.mp hv
      cases heq
      obtain ⟨q, hq, hmem⟩ := (owned hc.1).returned hc.2 hret
      exact ⟨q, hq, mem_append_right _ hmem⟩
    · obtain ⟨q, hq, hmem⟩ := ih hc.1 hv
      exact ⟨q, hq, mem_append_right _ hmem⟩

end CacheRun

/-- The cache answers with vectors of the process's own model, and keeps no entry without a model. -/
theorem cache_answers_own_model {Φ η F : Type} [DecidableEq Φ] [DecidableEq η] (fp : Nat → Φ) (dim : Nat)
    (run : CacheRun η F) (hc : run.KeepsModels fp dim) :
    (∀ p h v, (p, h, v) ∈ run.returned fp dim → ∃ q, fp q = fp p ∧ (q, h, v) ∈ run.handedOver fp dim) ∧
      ∀ e ∈ (run.state fp dim).cache.entries, (run.state fp dim).cache.models.contains e.modelId = true := by
  refine ⟨fun p h v hv => CacheRun.mem_returned hc hv, fun e he => ?_⟩
  obtain ⟨q, hq, _⟩ := CacheRun.owned hc e he
  obtain ⟨r, hr, _⟩ := map_eq_some_iff.mp hq
  simp [KeyedTable.contains, hr]

def agedModel : CacheRun Nat Nat :=
  [⟨0, 31, .gc 0⟩, ⟨0, 31, .insert [(7, [1])]⟩, ⟨1, 0, .openCache⟩, ⟨0, 0, .openCache⟩]

theorem agedModel_keepsModels : CacheRun.KeepsModels id 1 (⟨0, 32, .lookup [7] true⟩ :: agedModel) := by
  have hown : ∀ s : CacheState Nat Nat Nat, s.modelId 0 = some 1 →
      (s.cache.models.find? 1).map (·.fingerprint) = some 0 →
      ∀ model, s.modelId 0 = some model → (s.cache.models.find? model).map (·.fingerprint) = some (id 0) := by
    intro s hid hmeans model hmodel
    rw [hid] at hmodel
    cases hmodel
    exact hmeans
  refine ⟨⟨⟨⟨⟨trivial, trivial⟩, trivial⟩, ?_⟩, trivial⟩, ?_⟩
  · exact hown _ (by decide +kernel) (by decide +kernel)
  · exact hown _ (by decide +kernel) (by decide +kernel)

theorem cache_answers_agedModel :
    ∃ q, id q = id 0 ∧ (q, 7, [1]) ∈ CacheRun.handedOver id 1 (⟨0, 32, .lookup [7] true⟩ :: agedModel) :=
  (cache_answers_own_model id 1 (⟨0, 32, .lookup [7] true⟩ :: agedModel) agedModel_keepsModels).1 0 7 [1]
    (by decide +kernel)

def reusedModelId : CacheRun Nat Nat :=
  [⟨1, 32, .lookup [7] true⟩, ⟨2, 32, .insert [(7, [3])]⟩, ⟨2, 32, .openCache⟩] ++ agedModel

theorem cache_answers_reusedId :
    reusedModelId.returned id 1 = [(1, 7, [3])] ∧ reusedModelId.handedOver id 1 = [(2, 7, [3]), (0, 7, [1])] := by
  decide +kernel

end GMesh
