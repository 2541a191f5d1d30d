import GMesh.HopDistance
import GMesh.SymbolLinkDiff

namespace GMesh

open List

theorem Scope.mem_ofNode {scope : Scope} {n : NodeRow} (h : scope.holds n) (hc : n.container ≠ some "") :
    scope ∈ Scope.ofNode n.filePath n.language n.container := by
  cases scope with
  | file path =>
    simp only [holds, decide_eq_true_eq] at h
    simp [ofNode, h]
  | container language key =>
    simp only [holds, decide_eq_true_eq] at h
    have hkey : key ≠ "" := fun he => hc (he ▸ h.2)
    simp [ofNode, containerOf, h, hkey]

namespace Store

variable {s : Store} {n : NodeRow} {t : TargetRow} {a b : Address}

theorem mem_reexporters (hn : n ∈ s.nodes) (hre : isReexport n) (ht : s.targets.find? n.id = some t)
    (hkind : t.keyKind = .name) (hscope : Scope.fromRow t.scopeKind t.scope n.language = b.1)
    (hkey : t.key = b.2 ∨ t.key = reexportAllName ∧ b.2 ≠ defaultExportName) : n ∈ s.reexporters b := by
  obtain ⟨htm, hid⟩ := KeyedTable.find?_eq_some_iff.mp ht
  have hrow : (n, t) ∈ (s.targetedAt isReexport b.1).filter (fun r => decide (r.2.keyKind = .name)) := by
    refine mem_filter.mpr ⟨mem_filterMap.mpr ⟨t, htm, ?_⟩, by simpa using hkind⟩
    simp [hid, KeyedTable.find?_key hn, Option.filter, hre, hscope]
  unfold reexporters
  split
  next => exact mem_map_of_mem hrow
  next =>
    refine mem_flatMap.mpr ⟨t.key, ?_, mem_map.mpr ⟨(n, t), mem_filter.mpr ⟨hrow, by simp⟩, rfl⟩⟩
    rcases hkey with hkey | ⟨hkey, hdefault⟩
    · simp [hkey]
    · simp [hkey, hdefault]

variable {left : Nat} {visited frontier : List Address}

theorem mem_visited_or_fresh : a ∈ visited ∨ a ∈ keepFirst (fun a => a) visited frontier ↔
    a ∈ visited ∨ a ∈ frontier := by
  rw [mem_keepFirst_unseen]
  tauto

/-- The induction is on the rounds left: whatever republishes a met address is met or in the frontier. -/
theorem mem_republishedFrom {k : Nat} (hclosed : ∀ c ∈ visited, ∀ d ∈ s.republished c, d ∈ visited ∨ d ∈ frontier)
    (hreach : ReachIn (fun c d => c ∈ s.republished d) a k b) (hk : k ≤ left) (hb : b ∈ visited ∨ b ∈ frontier) :
    a ∈ visited ∨ a ∈ s.republishedFrom left visited frontier := by
  induction left generalizing visited frontier k b with
  | zero =>
    cases hreach with
    | start => exact mem_visited_or_fresh.mpr hb
    | step => exact absurd hk (Nat.not_succ_le_zero _)
  | succ left ih =>
    rw [republishedFrom, mem_append, ← or_assoc, mem_visited_or_fresh]
    have hmet : ∀ {c}, c ∈ keepFirst (fun a => a) visited frontier ++ visited ↔ c ∈ visited ∨ c ∈ frontier := by
      intro c
      rw [mem_append, or_comm, mem_visited_or_fresh]
    generalize keepFirst (fun a => a) visited frontier = fresh at hmet ⊢
    have hclosed' : ∀ c ∈ fresh ++ visited, ∀ d ∈ s.republished c,
        d ∈ fresh ++ visited ∨ d ∈ fresh.flatMap s.republished := by
      intro c hc d hd
      rcases mem_append.mp hc with hc | hc
      · exact .inr (mem_flatMap.mpr ⟨c, hc, hd⟩)
      · exact .inl (hmet.mpr (hclosed c hc d hd))
    cases hreach with
    | start => exact .inl hb
    | step hreach hstep =>
      rw [← hmet]
      exact ih hclosed' hreach (Nat.le_of_succ_le_succ hk) (hclosed' b (hmet.mpr hb) _ hstep)

theorem republishedFrom_nodup : (s.republishedFrom left visited frontier).Nodup ∧
    ∀ a ∈ s.republishedFrom left visited frontier, a ∉ visited := by
  have hfresh : (keepFirst (fun a => a) visited frontier).Nodup := (keepFirst_keys_nodup visited frontier).of_map
  induction left generalizing visited frontier with
  | zero => exact ⟨hfresh, fun a => keepFirst_key_not_seen⟩
  | succ left ih =>
    rw [republishedFrom]
    obtain ⟨hnodup, hnew⟩ := @ih (keepFirst (fun a => a) visited frontier ++ visited)
      ((keepFirst (fun a => a) visited frontier).flatMap s.republished) (keepFirst_keys_nodup _ _).of_map
    refine ⟨nodup_append.mpr ⟨hfresh, hnodup, ?_⟩, fun a ha => ?_⟩
    · rintro a ha _ hb rfl
      exact hnew a hb (mem_append_left _ ha)
    · rcases mem_append.mp ha with ha | ha
      · exact keepFirst_key_not_seen ha
      · exact fun hv => hnew a ha (mem_append_right _ hv)

end Store

namespace Index

/-- A re-export row of the scope, restricted or not, forwards the name to the next address. -/
def HopsTo (ix : Index) (a b : Address) : Prop := ∃ hop ∈ ix.hops a.1 a.2, hop.target = (b.1, .name b.2)

/-- No re-export stands in a container without a name, and one of a whole module is stored under that key. -/
def PlainReexports (ix : Index) : Prop := ∀ n ∈ ix.store.nodes, isReexport n = true → n.container ≠ some "" ∧
  ∀ t, ix.store.targets.find? n.id = some t → n.name = reexportAllName → t.key = reexportAllName

variable {ix : Index} {a b : Address}

theorem hopKey_eq_name {published name key m : String} {kind : KeyKind} (h : hopKey published name kind key = some (.name m)) :
    kind = .name ∧ (published ≠ reexportAllName ∧ key = m ∨
      published = reexportAllName ∧ name = m ∧ m ≠ defaultExportName) := by
  unfold hopKey at h
  split at h
  next hp => cases kind <;> simp_all [Key.fromRow]
  next hp =>
    split at h
    next => grind
    next => cases h

theorem mem_republished (hp : ix.PlainReexports) (h : ix.HopsTo a b) : a ∈ ix.store.republished b := by
  obtain ⟨_, hmem, htarget⟩ := h
  obtain ⟨n, hn, hhop⟩ := mem_filterMap.mp hmem
  obtain ⟨hn, hrow⟩ := mem_filter.mp hn
  simp only [Bool.and_eq_true, decide_eq_true_eq] at hrow
  obtain ⟨⟨hre, hscope⟩, hname⟩ := hrow
  obtain ⟨t, ht, hhop⟩ := Option.bind_eq_some_iff.mp hhop
  obtain ⟨_, hkey, rfl⟩ := Option.map_eq_some_iff.mp hhop
  obtain ⟨hto, rfl⟩ := Prod.mk.inj htarget
  obtain ⟨hkind, hkey⟩ := hopKey_eq_name hkey
  obtain ⟨hc, hall⟩ := hp n hn hre
  refine mem_flatMap.mpr ⟨n, Store.mem_reexporters hn hre ht hkind hto ?_, mem_map.mpr ⟨a.1, Scope.mem_ofNode hscope hc, ?_⟩⟩
  · rcases hkey with ⟨_, hkey⟩ | ⟨hstar, _, hdefault⟩
    · exact .inl hkey
    · exact .inr ⟨hall t ht hstar, hdefault⟩
  · rcases hkey with ⟨hstar, _⟩ | ⟨hstar, hsame, _⟩
    · rw [if_neg hstar, hname.resolve_right hstar]
    · rw [if_pos hstar, ← hsame]

/-- The search upwards finds every address from which the walk downwards comes to its seed, and each address once. -/
theorem republished_mirrors_hops (ix : Index) : (ix.PlainReexports → ∀ a b k, k ≤ maxReexportDepth →
    ReachIn ix.HopsTo a k b → a ∈ ix.store.republishedAddresses [b]) ∧
      ∀ seeds, (ix.store.republishedAddresses seeds).Nodup := by
  refine ⟨fun hp a b k hk hreach => ?_, fun seeds => Store.republishedFrom_nodup.1⟩
  have hup : ReachIn (fun c d => c ∈ ix.store.republished d) a k b := by
    induction hreach with
    | start => exact .start
    | step _ hhop ih => exact .step (ih (Nat.le_of_succ_le hk)) (mem_republished hp hhop)
  exact (Store.mem_republishedFrom (fun _ h => absurd h not_mem_nil) hup hk
    (.inr (mem_singleton.mpr rfl))).resolve_left not_mem_nil

/-- `a.ts` re-exports `x` of `b.ts`, and `b.ts` the whole of `c.ts` under the key. -/
def reexporting (key : String) (container : Option String) : Store where
  nodes := ⟨[{ id := "r", kind := .module, name := "x", filePath := "a.ts", nativeKind := some reexportNativeKind },
    { id := "w", kind := .module, name := "*", filePath := "b.ts", container, nativeKind := some reexportNativeKind }],
    by simp⟩
  targets := ⟨[{ nodeId := "r", scope := "b.ts", key := "x", fromFile := "a.ts" },
    { nodeId := "w", scope := "c.ts", key, fromFile := "b.ts" }], by simp⟩

theorem republished_mirrors_reexporting : PlainReexports ⟨reexporting "*" none, {}⟩ ∧
    (.file "a.ts", "x") ∈ (reexporting "*" none).republishedAddresses [(.file "c.ts", "x")] := by
  have hplain : PlainReexports ⟨reexporting "*" none, {}⟩ := by
    rintro n hn _
    rcases mem_pair.mp hn with rfl | rfl
    · exact ⟨nofun, nofun⟩
    · exact ⟨nofun, by rintro _ ⟨⟩ _; rfl⟩
  have hnamed : HopsTo ⟨reexporting "*" none, {}⟩ (.file "a.ts", "x") (.file "b.ts", "x") := ⟨_, mem_singleton.mpr rfl, rfl⟩
  have hwhole : HopsTo ⟨reexporting "*" none, {}⟩ (.file "b.ts", "x") (.file "c.ts", "x") := ⟨_, mem_singleton.mpr rfl, rfl⟩
  exact ⟨hplain, (republished_mirrors_hops _).1 hplain _ _ 2 (by decide) (.step (.step .start hnamed) hwhole)⟩

/-- Walked down and not searched up: a whole module under a key of its own, and one in a container without a name. -/
theorem republished_misses_keyedStar :
    ReachIn (HopsTo ⟨reexporting "x" none, {}⟩) (.file "b.ts", "y") 1 (.file "c.ts", "y") ∧
    (.file "b.ts", "y") ∉ (reexporting "x" none).republishedAddresses [(.file "c.ts", "y")] ∧
    ReachIn (HopsTo ⟨reexporting "*" (some ""), {}⟩) (.container "" "", "y") 1 (.file "c.ts", "y") ∧
    (.container "" "", "y") ∉ (reexporting "*" (some "")).republishedAddresses [(.file "c.ts", "y")] :=
  ⟨.step .start ⟨_, mem_singleton.mpr rfl, rfl⟩, by decide, .step .start ⟨_, mem_singleton.mpr rfl, rfl⟩, by decide⟩

end Index

end GMesh
