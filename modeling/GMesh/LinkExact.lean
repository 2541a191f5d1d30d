import GMesh.LinkOutcome

namespace GMesh

open KeyedTable List Option

namespace Store

/-- A store as linking leaves it: a moved edge is resolved and stands on no placeholder. -/
structure Settled (s : Store) : Prop where
  resolved : ∀ e ∈ s.edges, e.linkedFrom.isSome → e.resolved = true
  apart : ∀ e ∈ s.edges, ∀ p ∈ s.placeholders, ∀ q ∈ s.placeholders,
    e.toId = p.id → e.linkedFrom = some q.id → q.id = p.id

theorem mem_placeholders {s : Store} {p : Placeholder} (hp : p ∈ s.placeholders) :
    ∃ n ∈ s.nodes, isPlaceholder n ∧ n.id = p.id ∧ s.placeholderOf n = some p := by
  obtain ⟨n, hn, hof⟩ := mem_filterMap.mp hp
  obtain ⟨hn, hkind⟩ := List.mem_filter.mp hn
  obtain ⟨t, _, rfl⟩ := map_eq_some_iff.mp hof
  exact ⟨n, hn, hkind, rfl, hof⟩

theorem placeholders_nodup (s : Store) : (s.placeholders.map Placeholder.id).Nodup := by
  have hsub : (s.placeholders.map Placeholder.id).Sublist ((s.nodes.rows.filter isPlaceholder).map NodeRow.id) := by
    unfold placeholders
    generalize s.nodes.rows.filter isPlaceholder = rows
    induction rows with
    | nil => exact .refl _
    | cons _ _ ih =>
      rw [filterMap_cons]
      split
      next => exact ih.cons _
      next p hp =>
        obtain ⟨t, _, rfl⟩ := map_eq_some_iff.mp hp
        exact ih.cons_cons _
  exact (s.nodes.nodup.sublist (filter_sublist.map NodeRow.id)).sublist hsub

end Store

namespace EdgeRow

def linkedTo (placeholder target : String) (e : EdgeRow) : EdgeRow :=
  { e with toId := target, resolved := true, linkedFrom := some placeholder }

def backOn (placeholder : String) (e : EdgeRow) : EdgeRow :=
  if e.linkedFrom = some placeholder then { e with toId := placeholder, resolved := false, linkedFrom := none } else e

end EdgeRow

namespace Index

variable {ix : Index} {p : Placeholder} {e : EdgeRow}

def requiredFor (p : Placeholder) (e : EdgeRow) : Option (Option (List NodeKind)) :=
  requiredTargetKind e.kind (admitsUnseen e.kind e.source p.key)

theorem targetFor_eq_some {required : Option (List NodeKind)} {id : String} (hr : requiredFor p e = some required) :
    ix.targetFor p e.group required = some id ↔ ix.Chosen p e.kind e.source id := by
  unfold targetFor Chosen
  rw [choose_resolve]
  constructor
  · exact fun h => ⟨required, hr, h⟩
  · rintro ⟨_, hr', h⟩
    cases (hr.symm.trans hr')
    exact h

section

variable {kind : EdgeKind} {source : SourceTier} {id : String} (h : ix.Chosen p kind source id)

include h

theorem Chosen.declaration :
    ∃ n ∈ ix.store.nodes, n.id = id ∧ ∀ k ∈ nonDeclarationNativeKinds, n.nativeKind ≠ some k := by
  obtain ⟨_, _, c, ⟨⟨hc, _⟩, _⟩, hid, _⟩ := h
  rcases hc with ⟨_, _, _, _, _, ha, _⟩ | ⟨_, _, _, _, _, _, _, _, _, _, _, _, _, ha⟩
  · exact ⟨c, ha.stored, hid, ha.declares⟩
  · exact ⟨c, ha.stored, hid, ha.declares⟩

theorem Chosen.not_placeholder {q : Placeholder} (hq : q ∈ ix.store.placeholders) : id ≠ q.id := by
  obtain ⟨n, hn, rfl, hdecl⟩ := h.declaration
  obtain ⟨m, hm, hkind, hid, _⟩ := Store.mem_placeholders hq
  intro he
  have hnm := ix.store.nodes.key_injective hn hm (he.trans hid.symm)
  subst hnm
  have hpending : n.kind = .module ∧ n.nativeKind = some pendingSymbolNativeKind := of_decide_eq_true hkind
  exact hdecl pendingSymbolNativeKind (by decide) hpending.2

end

section Settle

variable (hs : ix.store.Settled) (hp : p ∈ ix.store.placeholders) (he : e ∈ ix.store.edges)
  (hb : e.belongsTo p.id)

include hs hp he hb

theorem settle_chosen {id : String} (h : ix.Chosen p e.kind e.source id) : ix.settle p e = e.linkedTo p.id id := by
  have hchosen := h
  obtain ⟨required, hr, _⟩ := h
  have ht : ix.targetFor p e.group required = some id := (targetFor_eq_some hr).mpr hchosen
  unfold settle
  rw [show requiredTargetKind e.kind (admitsUnseen e.kind e.source p.key) = some required from hr]
  dsimp only
  rw [ht]
  by_cases hto : e.toId = id
  · have hfrom : e.linkedFrom = some p.id :=
      (of_decide_eq_true hb).resolve_left fun h' => hchosen.not_placeholder hp (hto.symm.trans h')
    have hres := hs.resolved e he (by rw [hfrom]; rfl)
    refine (if_neg fun hc => hc.2.2 hto).trans ?_
    unfold EdgeRow.linkedTo
    rw [← hto, ← hres, ← hfrom]
  · exact if_pos ⟨hb, rfl, hto⟩

omit hs hp he hb in
theorem settle_unchosen (hu : (requiredFor p e).isSome) (h : ∀ id, ¬ ix.Chosen p e.kind e.source id) :
    ix.settle p e = e.backOn p.id := by
  obtain ⟨required, hr⟩ := isSome_iff_exists.mp hu
  have ht : ix.targetFor p e.group required = none := by
    cases ht : ix.targetFor p e.group required with
    | none => rfl
    | some id => exact absurd ((targetFor_eq_some hr).mp ht) (h id)
  unfold settle
  rw [show requiredTargetKind e.kind (admitsUnseen e.kind e.source p.key) = some required from hr]
  dsimp only
  rw [ht]
  unfold moved EdgeRow.unlink EdgeRow.backOn
  simp

section

variable {q : Placeholder} (hq : q ∈ ix.store.placeholders)

include hq

theorem belongs_once (h : e.belongsTo q.id) : q.id = p.id := by
  rcases of_decide_eq_true hb with hto | hfrom <;> rcases of_decide_eq_true h with hto' | hfrom'
  · exact hto'.symm.trans hto
  · exact hs.apart e he p hp q hq hto hfrom'
  · exact (hs.apart e he q hq p hp hto' hfrom).symm
  · exact Option.some.inj (hfrom'.symm.trans hfrom)

theorem settle_belongs (hne : q.id ≠ p.id) : (ix.settle p e).belongsTo q.id = false := by
  have hstays : e.belongsTo q.id = false := by
    cases h : e.belongsTo q.id with
    | false => rfl
    | true => exact absurd (belongs_once hs hp he hb hq h) hne
  cases hu : requiredFor p e with
  | none =>
    have hsame : ix.settle p e = e := by
      unfold settle
      rw [show requiredTargetKind e.kind (admitsUnseen e.kind e.source p.key) = none from hu]
    rwa [hsame]
  | some required =>
    by_cases hc : ∃ id, ix.Chosen p e.kind e.source id
    · obtain ⟨id, hc⟩ := hc
      rw [settle_chosen hs hp he hb hc]
      have hid := hc.not_placeholder hq
      exact decide_eq_false fun h => h.elim hid fun h' => hne (Option.some.inj h').symm
    · rw [settle_unchosen (by rw [hu]; rfl) (not_exists.mp hc)]
      unfold EdgeRow.backOn
      split
      next => exact decide_eq_false fun h => h.elim (fun h' => hne h'.symm) nofun
      next => exact hstays

end

omit hs hp he hb in
theorem settle_strangers {ps : List Placeholder} (h : ∀ q ∈ ps, e.belongsTo q.id = false) :
    ps.foldl (fun e q => ix.settle q e) e = e := by
  induction ps with
  | nil => rfl
  | cons q _ ih =>
    rw [foldl_cons, settle_stranger (h q mem_cons_self)]
    exact ih fun q' hq' => h q' (mem_cons_of_mem q hq')

theorem settle_own {ps : List Placeholder} (hperm : ps.Perm ix.store.placeholders) :
    ps.foldl (fun e q => ix.settle q e) e = ix.settle p e := by
  obtain ⟨before, after, rfl⟩ := append_of_mem (hperm.mem_iff.mpr hp)
  have hnodup : ((before ++ p :: after).map Placeholder.id).Nodup :=
    (hperm.map Placeholder.id).nodup_iff.mpr ix.store.placeholders_nodup
  have hother : ∀ q ∈ before ++ after, q ∈ ix.store.placeholders ∧ q.id ≠ p.id := by
    intro q hq
    have hperm' : (before ++ p :: after).Perm (p :: (before ++ after)) := perm_middle
    rw [(hperm'.map Placeholder.id).nodup_iff, map_cons, nodup_cons] at hnodup
    refine ⟨hperm.mem_iff.mp (hperm'.mem_iff.mpr (mem_cons_of_mem p hq)), fun h => hnodup.1 ?_⟩
    exact h ▸ mem_map_of_mem hq
  rw [foldl_append, foldl_cons]
  have hbefore : before.foldl (fun e q => ix.settle q e) e = e := by
    refine settle_strangers fun q hq => ?_
    obtain ⟨hq, hne⟩ := hother q (mem_append_left after hq)
    cases h : e.belongsTo q.id with
    | false => rfl
    | true => exact absurd (belongs_once hs hp he hb hq h) hne
  rw [hbefore]
  refine settle_strangers fun q hq => ?_
  obtain ⟨hq, hne⟩ := hother q (mem_append_right before hq)
  exact settle_belongs hs hp he hb hq hne

end Settle

end Index

namespace Store

def linkApart (s : Store) (rules : LinkRules) (ps : List Placeholder) : EdgeTable × Nat :=
  ps.foldl (fun edges p => (Index.linkPlaceholder { store := s, rules } edges p {}).1) (s.edges, 0)

theorem linkApart_eq (s : Store) (rules : LinkRules) (ps : List Placeholder) :
    s.linkApart rules ps = ((s.link rules ps).1.edges, (s.link rules ps).2) := by
  rw [link_plain]
  unfold linkApart
  congr 1
  funext edges p
  exact (Index.linkPlaceholder_gives edges p {} (Caches.empty_valid _)).1

section Exact

variable {s : Store} {rules : LinkRules} {ps : List Placeholder} (hps : ps.Perm s.placeholders)

include hps

theorem link_own (hs : s.Settled) {p : Placeholder} (hp : p ∈ s.placeholders) {e : EdgeRow} (he : e ∈ s.edges)
    (hb : e.belongsTo p.id) :
    (s.link rules ps).1.edges.find? e.id = some (Index.settle { store := s, rules } p e) := by
  let ix : Index := { store := s, rules }
  rw [link_find?, find?_key he, map_some]
  exact congrArg some (ix.settle_own hs hp he hb hps)

theorem link_stranger {e : EdgeRow} (he : e ∈ s.edges) (hb : ∀ p ∈ s.placeholders, e.belongsTo p.id = false) :
    (s.link rules ps).1.edges.find? e.id = some e := by
  rw [link_find?, find?_key he, map_some]
  exact congrArg some (Index.settle_strangers fun q hq => hb q (hps.mem_iff.mp hq))

theorem link_order (hs : s.Settled) (id : String) :
    (s.link rules ps).1.edges.find? id = (s.linkAll rules).1.edges.find? id := by
  cases hf : s.edges.find? id with
  | none =>
    unfold linkAll
    rw [link_find?, link_find?, hf]
    rfl
  | some e =>
    obtain ⟨he, rfl⟩ := find?_eq_some_iff.mp hf
    by_cases hb : ∃ p ∈ s.placeholders, e.belongsTo p.id
    · obtain ⟨p, hp, hb⟩ := hb
      exact (link_own hps hs hp he hb).trans (link_own (.refl _) hs hp he hb).symm
    · have hb : ∀ p ∈ s.placeholders, e.belongsTo p.id = false := by simpa using hb
      exact (link_stranger hps he hb).trans (link_stranger (.refl _) he hb).symm

end Exact

end Store

/-- Every usage edge of a targeted placeholder ends at the single choice at the smallest depth with any candidate, or
on its placeholder, in whatever order the placeholders come. -/
theorem symbol_linking_exact (s : Store) (rules : LinkRules) (hs : s.Settled) :
    (∀ p ∈ s.placeholders, ∀ e ∈ s.edges, e.belongsTo p.id = true → (Index.requiredFor p e).isSome →
      ∃ e', (s.linkAll rules).1.edges.find? e.id = some e' ∧
        (∀ d, (e'.toId = d ∧ e'.resolved = true ∧ e'.linkedFrom = some p.id) ↔
          Index.Chosen { store := s, rules } p e.kind e.source d) ∧
        ((∀ d, ¬ Index.Chosen { store := s, rules } p e.kind e.source d) → e' = e.backOn p.id)) ∧
    ∀ ps : List Placeholder, ps.Perm s.placeholders →
      (∀ id, (s.link rules ps).1.edges.find? id = (s.linkAll rules).1.edges.find? id) ∧
      (s.linkApart rules ps).1 = (s.link rules ps).1.edges := by
  constructor
  · intro p hp e he hb hu
    let ix : Index := { store := s, rules }
    refine ⟨_, Store.link_own (List.Perm.refl _) hs hp he hb, fun d => ⟨fun hd => ?_, fun hc => ?_⟩, fun hc => ?_⟩
    · by_cases hc : ∃ d', ix.Chosen p e.kind e.source d'
      · obtain ⟨d', hc⟩ := hc
        rw [ix.settle_chosen hs hp he hb hc] at hd
        rwa [← hd.1]
      · rw [ix.settle_unchosen hu (not_exists.mp hc)] at hd
        unfold EdgeRow.backOn at hd
        split at hd
        next => exact nomatch hd.2.2
        next hn => exact absurd hd.2.2 hn
    · rw [ix.settle_chosen hs hp he hb hc]
      exact ⟨rfl, rfl, rfl⟩
    · exact ix.settle_unchosen hu hc
  · intro ps hps
    exact ⟨Store.link_order hps hs, congrArg Prod.fst (s.linkApart_eq rules ps)⟩

/-- A function that another file re-exports, with a call of it that waits and one that is linked already. -/
def usageStore : Store where
  nodes := ⟨[{ id := "d", name := "x", filePath := "c.ts", visibility := .everywhere },
    { id := "r", kind := .module, name := "x", filePath := "a.ts", nativeKind := some reexportNativeKind },
    { id := "p", kind := .module, filePath := "b.ts", nativeKind := some pendingSymbolNativeKind }], by decide⟩
  edges := ⟨[{ id := "e", fromId := "f", toId := "p" },
    { id := "l", fromId := "g", toId := "d", resolved := true, linkedFrom := some "p" }], by decide⟩
  targets := ⟨[{ nodeId := "r", scope := "c.ts", key := "x", fromFile := "a.ts" },
    { nodeId := "p", scope := "a.ts", key := "x", fromFile := "b.ts" }], by decide⟩

theorem usageStore_settled : usageStore.Settled := ⟨by decide, by decide⟩

theorem symbol_linking_exact_usage : usageStore.Settled ∧ ∀ e ∈ usageStore.edges, ∃ e',
    (usageStore.linkAll {}).1.edges.find? e.id = some e' ∧ e'.toId = "d" ∧ e'.resolved = true ∧ e'.linkedFrom = some "p" := by
  let p : Placeholder := { id := "p", scope := .file "a.ts", key := .name "x", requester := { file := "b.ts", language := "" } }
  have htarget : ∀ e ∈ usageStore.edges.rows, e.belongsTo p.id = true ∧ Index.requiredFor p e = some (some [.function]) ∧
      Index.targetFor { store := usageStore, rules := {} } p e.group (some [.function]) = some "d" := by
    decide +kernel
  refine ⟨usageStore_settled, fun e he => ?_⟩
  obtain ⟨hb, hr, hd⟩ := htarget e he
  obtain ⟨e', hf, hat, _⟩ := (symbol_linking_exact usageStore {} usageStore_settled).1 p (by decide) e he hb
    (Option.isSome_of_eq_some hr)
  exact ⟨e', hf, (hat "d").mpr ((Index.targetFor_eq_some hr).mp hd)⟩

/-- A variable `x` before a re-exported function `x`, and edges of placeholders for either, for nothing there is and
without a target. -/
def mixedStore : Store where
  nodes := ⟨[{ id := "v", kind := .variable, name := "x", filePath := "a.ts", visibility := .everywhere },
    { id := "r", kind := .module, name := "x", filePath := "a.ts", nativeKind := some reexportNativeKind },
    { id := "d", name := "x", filePath := "c.ts", visibility := .everywhere },
    { id := "p", kind := .module, filePath := "b.ts", nativeKind := some pendingSymbolNativeKind },
    { id := "q", kind := .module, filePath := "b.ts", nativeKind := some pendingSymbolNativeKind },
    { id := "w", kind := .module, filePath := "b.ts", nativeKind := some pendingSymbolNativeKind },
    { id := "u", kind := .module, filePath := "b.ts", nativeKind := some pendingSymbolNativeKind }], by decide⟩
  edges := ⟨[{ id := "call", fromId := "f", toId := "p" },
    { id := "sent", fromId := "f", toId := "w", resolved := true },
    { id := "orphan", fromId := "f", toId := "d", resolved := true, linkedFrom := some "u" },
    { id := "stale", fromId := "f", toId := "d", linkedFrom := some "q" },
    { id := "torn", fromId := "f", toId := "q", linkedFrom := some "w" }], by decide⟩
  targets := ⟨[{ nodeId := "r", scope := "c.ts", key := "x", fromFile := "a.ts" },
    { nodeId := "p", scope := "a.ts", key := "x", fromFile := "b.ts" },
    { nodeId := "q", scope := "c.ts", key := "x", fromFile := "b.ts" },
    { nodeId := "w", scope := "c.ts", key := "z", fromFile := "b.ts" }], by decide⟩

/-- The call stays on its placeholder although its function is a hop away: the walk ends at the variable. The torn
edge ends where the order of the placeholders says. -/
theorem symbol_linking_mixedStore :
    (let ix : Index := { store := mixedStore, rules := {} }
      let r : Requester := { file := "b.ts", language := "" }
      (ix.admitted r (.file "a.ts", .name "x")).map (·.kind) = [.variable] ∧
      (ix.expand (fun _ => true) r (.file "a.ts", .name "x")).map Hop.target = [(.file "c.ts", .name "x")] ∧
      (ix.admitted r (.file "c.ts", .name "x")).map (fun c => (c.id, c.kind)) = [("d", .function)]) ∧
    (mixedStore.linkAll {}).1.edges.rows =
      [{ id := "call", fromId := "f", toId := "p" },
        { id := "sent", fromId := "f", toId := "w", resolved := true },
        { id := "orphan", fromId := "f", toId := "d", resolved := true, linkedFrom := some "u" },
        { id := "stale", fromId := "f", toId := "d", linkedFrom := some "q" },
        { id := "torn", fromId := "f", toId := "d", resolved := true, linkedFrom := some "q" }] ∧
    (mixedStore.link {} mixedStore.placeholders.reverse).1.edges.find? "torn" =
      some { id := "torn", fromId := "f", toId := "w" } := by
  decide +kernel

end GMesh
