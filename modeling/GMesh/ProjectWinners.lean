import GMesh.ProjectListing
import Mathlib.Data.List.Induction

namespace GMesh

open KeyedTable List Option

namespace Project

variable {P : Project} {F : FollowedTable}

/-- The spelling a real file is listed under: the first with no followed link above it, else the first. -/
structure Best (P : Project) (F : FollowedTable) (walked : List FsPath) (winner : Winner) : Prop where
  spelled : ∃ path, walked[winner.index]? = some path ∧ P.realOf F path = (winner.real, winner.viaLink)
  first : ∀ (j : Nat) (path : FsPath), walked[j]? = some path → (P.realOf F path).1 = winner.real →
    (P.realOf F path).2 = winner.viaLink → winner.index ≤ j
  plain : winner.viaLink = true → ∀ path ∈ walked, (P.realOf F path).1 = winner.real → (P.realOf F path).2 = true

theorem winners_concat (walked : List FsPath) (path : FsPath) :
    P.winners F (walked ++ [path]) =
      (P.winners F walked).offer (P.realOf F path).1 (P.realOf F path).2 walked.length := by
  simp [winners, zipIdx_append]

theorem offer_find? (winners : WinnerTable) (real r : FsPath) (via : Bool) (index : Nat) :
    (winners.offer real via index).find? r =
      if real = r then
        match winners.find? r with
        | some w => if w.viaLink && !via then some ⟨r, index, via⟩ else some w
        | none => some ⟨r, index, via⟩
      else winners.find? r := by
  unfold WinnerTable.offer
  by_cases h : real = r
  · subst h
    cases hf : winners.find? real with
    | none => simp
    | some w => by_cases hv : (w.viaLink && !via) <;> simp [hv, hf]
  · cases hf : winners.find? real with
    | none => simp [h]
    | some w => by_cases hv : (w.viaLink && !via) <;> simp [hv, h]

variable {walked : List FsPath} {path : FsPath} {f : WalkedEntry}

theorem getElem?_concat_cases {q : FsPath} {j : Nat} (h : (walked ++ [path])[j]? = some q) :
    walked[j]? = some q ∨ j = walked.length ∧ q = path := by
  by_cases hj : j < walked.length
  · exact .inl (by rwa [getElem?_append_left hj] at h)
  · rw [getElem?_append_right (by omega)] at h
    have hlt := (List.getElem?_eq_some_iff.mp h).1
    have hzero : j - walked.length = 0 := by simpa using hlt
    rw [hzero] at h
    exact .inr ⟨by omega, by simpa using h.symm⟩

theorem Best.concat {w : Winner} (h : Best P F walked w)
    (hkeep : (P.realOf F path).1 = w.real → w.viaLink → (P.realOf F path).2) :
    Best P F (walked ++ [path]) w := by
  obtain ⟨p, hp, hreal⟩ := h.spelled
  have hlt : w.index < walked.length := (List.getElem?_eq_some_iff.mp hp).1
  refine ⟨⟨p, ?_, hreal⟩, ?_, ?_⟩
  · rw [getElem?_append_left hlt]
    exact hp
  · intro j q hq hr hv
    rcases getElem?_concat_cases hq with hq | ⟨rfl, rfl⟩
    · exact h.first j q hq hr hv
    · omega
  · intro hv q hq hr
    rcases mem_append.mp hq with hq | hq
    · exact h.plain hv q hq hr
    · rw [mem_singleton.mp hq] at hr ⊢
      exact hkeep hr hv

theorem best_new
    (hnew : ∀ q ∈ walked, (P.realOf F q).1 = (P.realOf F path).1 → (P.realOf F q).2 ∧ (P.realOf F path).2 = false)
    :
    Best P F (walked ++ [path]) ⟨(P.realOf F path).1, walked.length, (P.realOf F path).2⟩ := by
  refine ⟨⟨path, by simp, rfl⟩, ?_, ?_⟩
  · intro j q hq hr hv
    rcases getElem?_concat_cases hq with hq | ⟨rfl, rfl⟩
    · obtain ⟨hq', hp⟩ := hnew q (mem_of_getElem? hq) hr
      rw [hq', hp] at hv
      simp at hv
    · exact Nat.le_refl _
  · intro hv q hq hr
    rcases mem_append.mp hq with hq | hq
    · exact (hnew q hq hr).1
    · rw [mem_singleton.mp hq]
      exact hv

/-- Each walked real file has a winner, its best spelling. -/
theorem winners_spec (P : Project) (F : FollowedTable) (walked : List FsPath) :
    (∀ real w, (P.winners F walked).find? real = some w → w.real = real ∧ Best P F walked w) ∧
      ∀ real, (P.winners F walked).find? real = none → ∀ path ∈ walked, (P.realOf F path).1 ≠ real := by
  induction walked using List.reverseRecOn with
  | nil => exact ⟨fun real w h => by simp [winners] at h, fun real _ path hp => absurd hp not_mem_nil⟩
  | append_singleton walked _ ih =>
    obtain ⟨ihsome, ihnone⟩ := ih
    simp only [winners_concat, offer_find?]
    refine ⟨fun real w h => ?_, fun real h => ?_⟩
    · split at h
      · next hr =>
        cases hf : (P.winners F walked).find? real with
        | none =>
          simp only [hf, some.injEq] at h
          subst h
          subst hr
          exact ⟨rfl, best_new fun q hq hreal => absurd hreal (ihnone _ hf q hq)⟩
        | some v =>
          obtain ⟨hvr, hbest⟩ := ihsome real v hf
          simp only [hf] at h
          split at h
          · next hv =>
            cases h
            subst hr
            simp only [Bool.and_eq_true, Bool.not_eq_true'] at hv
            exact ⟨rfl, best_new fun q hq hreal => ⟨hbest.plain hv.1 q hq (hreal.trans hvr.symm), hv.2⟩⟩
          · next hv =>
            cases h
            refine ⟨hvr, hbest.concat fun _ hvia => ?_⟩
            simpa [hvia] using hv
      · next hr =>
        obtain ⟨hwr, hbest⟩ := ihsome real w h
        exact ⟨hwr, hbest.concat fun hreal => absurd (hreal.trans hwr) hr⟩
    · split at h
      · next hr =>
        cases hf : (P.winners F walked).find? real with
        | none => simp [hf] at h
        | some v =>
          simp only [hf] at h
          split at h <;> simp at h
      · next hr =>
        intro q hq
        rcases mem_append.mp hq with hq | hq
        · exact ihnone real h q hq
        · rw [mem_singleton.mp hq]
          exact hr

theorem mem_winners {w : Winner} (hw : w ∈ (P.winners F walked).rows) : Best P F walked w :=
  ((winners_spec P F walked).1 _ _ (find?_key hw)).2

theorem exists_winner (hp : path ∈ walked) :
    ∃ w ∈ (P.winners F walked).rows, w.real = (P.realOf F path).1 ∧ Best P F walked w := by
  cases hf : (P.winners F walked).find? (P.realOf F path).1 with
  | none => exact absurd rfl ((winners_spec P F walked).2 _ hf path hp)
  | some w =>
    obtain ⟨hm, hr⟩ := find?_eq_some_iff.mp hf
    exact ⟨w, hm, hr, mem_winners hm⟩

theorem mem_finish_files {guard : GuardState} :
    f ∈ (P.finish guard walked).files ↔
      ∃ w ∈ (P.winners guard.followed walked).rows, ∃ path, walked[w.index]? = some path ∧
        f = P.entryOf guard.followed path := by
  simp only [finish, List.mem_map, List.mem_filter, List.any_eq_true, decide_eq_true_eq, Prod.exists,
    mem_zipIdx_iff_getElem?]
  constructor
  · rintro ⟨path, i, ⟨hp, w, hw, rfl⟩, rfl⟩
    exact ⟨w, hw, path, hp, rfl⟩
  · rintro ⟨w, hw, path, hp, rfl⟩
    exact ⟨path, w.index, ⟨hp, w, hw, rfl⟩, rfl⟩

def WalkOrder (p q : FsPath) : Prop := p.reverse < q.reverse

variable {dir : FsPath}

theorem walkOrder_of_lt {xs ys : FsPath} {a b : String} (h : a < b) : WalkOrder (xs ++ a :: dir) (ys ++ b :: dir) := by
  have hlt : a :: xs.reverse < b :: ys.reverse := cons_lt_cons_iff.mpr (.inl h)
  have happ := @List.append_left_lt _ _ dir.reverse _ _ hlt
  simpa [WalkOrder] using happ

variable {real : FsPath} {above : List FsPath} {name : String} {node : FsNode}

theorem Met.files {st s : WalkState} {sub : Option FsPath}
    (h : Met P dir real above st name node s sub) :
    s.files = st.files ∨ sub = none ∧ s.files = st.files ++ [name :: dir] := by
  cases h with
  | file => exact .inr ⟨rfl, rfl⟩
  | followFile => exact .inr ⟨rfl, rfl⟩
  | ignored | excluded | dir | dangling | ancestor | entered | refused | followDir => exact .inl rfl

structure Yields (dir : FsPath) (entries : List (String × FsNode)) (new : List FsPath) : Prop where
  ordered : new.Pairwise WalkOrder
  below : ∀ p ∈ new, ∃ xs, ∃ e ∈ entries, p = xs ++ e.1 :: dir

theorem Yields.cons {rest : List (String × FsNode)} {first new : List FsPath}
    (hsorted : ((name, node) :: rest).Pairwise fun a b => a.1 < b.1) (hordered : first.Pairwise WalkOrder)
    (hfirst : ∀ p ∈ first, ∃ xs, p = xs ++ name :: dir) (h : Yields dir rest new) :
    Yields dir ((name, node) :: rest) (first ++ new) where
  ordered := by
    refine pairwise_append.mpr ⟨hordered, h.ordered, fun p hp q hq => ?_⟩
    obtain ⟨xs, rfl⟩ := hfirst p hp
    obtain ⟨ys, e, he, rfl⟩ := h.below q hq
    exact walkOrder_of_lt ((pairwise_cons.mp hsorted).1 e he)
  below p hp := by
    rcases mem_append.mp hp with hp | hp
    · obtain ⟨xs, rfl⟩ := hfirst p hp
      exact ⟨xs, (name, node), mem_cons_self, rfl⟩
    · obtain ⟨xs, e, he, rfl⟩ := h.below p hp
      exact ⟨xs, e, mem_cons_of_mem _ he, rfl⟩

theorem entriesAt_sorted (P : Project) (real : FsPath) : (P.disk.entriesAt real).Pairwise fun a b => a.1 < b.1 := by
  unfold Disk.entriesAt
  split
  · next d hd => exact P.sorted d (find?_eq_some_iff.mp hd).1
  · exact .nil

theorem Runs.yields {entries : List (String × FsNode)} {st st' : WalkState}
    (h : Runs P dir real above entries st st') (hsorted : entries.Pairwise fun a b => a.1 < b.1) :
    ∃ new, st'.files = st.files ++ new ∧ Yields dir entries new := by
  induction h with
  | nil => exact ⟨[], by simp, .nil, by simp⟩
  | @flat dir _ _ name _ _ _ _ _ _ hmet _ ih =>
    obtain ⟨new, hnew, hy⟩ := ih (pairwise_cons.mp hsorted).2
    rcases hmet.files with hf | ⟨_, hf⟩
    · exact ⟨[] ++ new, by rw [hnew, hf, nil_append], hy.cons hsorted List.Pairwise.nil (by simp)⟩
    · refine ⟨[name :: dir] ++ new, by rw [hnew, hf, append_assoc], hy.cons hsorted (by simp) fun p hp => ?_⟩
      exact ⟨[], mem_singleton.mp hp⟩
  | @deep _ _ sub _ _ _ _ st s _ _ _ hmet _ _ ihsub ihrest =>
    obtain ⟨inner, hinner, hyi⟩ := ihsub (P.entriesAt_sorted sub)
    obtain ⟨new, hnew, hy⟩ := ihrest (pairwise_cons.mp hsorted).2
    have hf : s.files = st.files := by
      rcases hmet.files with hf | ⟨hn, _⟩
      · exact hf
      · cases hn
    refine ⟨inner ++ new, by rw [hnew, hinner, hf, append_assoc], hy.cons hsorted hyi.ordered fun p hp => ?_⟩
    obtain ⟨xs, e, _, rfl⟩ := hyi.below p hp
    exact ⟨xs ++ [e.1], by simp⟩

theorem VisitsFile.clean (hF : FollowsLinks P F) {via : Bool} (h : VisitsFile P F path real via) :
    ∃ name up, real = name :: up ∧ P.Clean up := by
  cases h with
  | @file _ real _ name hup => exact ⟨name, real, rfl, hup.clean hF⟩
  | @link _ _ _ _ _ _ hlink hf =>
    obtain ⟨_, below, rfl, hex⟩ := hF _ _ hf
    have hfile := link_file_listed hlink ⟨below, rfl⟩
    cases below with
    | nil =>
      -- the root is a directory: nothing lists it as a file
      cases hr : P.rootReal with
      | nil => simp [hr, Disk.fileAt] at hfile
      | cons top up =>
        rw [nil_append, hr, Disk.fileAt, decide_eq_true_eq] at hfile
        obtain ⟨below, hbelow⟩ := listed_below_root (nodeAt_listed hfile)
        rw [hr] at hbelow
        have hlen := congrArg List.length hbelow
        simp only [length_append, length_cons] at hlen
        omega
    | cons top below => exact ⟨top, below ++ P.rootReal, rfl, below, rfl, fun n hn => hex n (mem_cons_of_mem _ hn)⟩

section Listed

variable {st : WalkState}

theorem finish_listed (h : Sound P st) (hf : f ∈ (P.finish st.guard st.files).files) :
    ∃ w, Best P st.guard.followed st.files w ∧ st.files[w.index]? = some f.relative ∧
      VisitsFile P st.guard.followed f.relative w.real w.viaLink := by
  obtain ⟨w, hw, path, hp, rfl⟩ := mem_finish_files.mp hf
  have hbest := mem_winners hw
  obtain ⟨q, hq, hreal⟩ := hbest.spelled
  rw [hp, some.injEq] at hq
  subst hq
  obtain ⟨real, via, hv⟩ := h.files path (mem_of_getElem? hp)
  have heq := (hv.realOf h.follows).symm.trans hreal
  obtain ⟨rfl, rfl⟩ := Prod.mk.inj heq
  exact ⟨w, hbest, hp, hv⟩

theorem finish_reals_nodup (h : Sound P st) :
    ((P.finish st.guard st.files).files.map fun f => P.realPath f.relative).Nodup := by
  rw [finish, List.map_map, List.Nodup, pairwise_map, pairwise_filter]
  have hidx : st.files.zipIdx.Pairwise fun a b => a.2 ≠ b.2 := by
    rw [← pairwise_map (f := Prod.snd) (R := (· ≠ ·)), zipIdx_map_snd]
    exact nodup_range'
  refine hidx.imp_of_mem fun {a b} ha hb hne hka hkb heq => hne ?_
  obtain ⟨v, hv, hvi⟩ := any_eq_true.mp hka
  obtain ⟨w, hw, hwi⟩ := any_eq_true.mp hkb
  have hvi := of_decide_eq_true hvi
  have hwi := of_decide_eq_true hwi
  have hreal : ∀ {c : FsPath × Nat} {u : Winner}, c ∈ st.files.zipIdx →
      u ∈ (P.winners st.guard.followed st.files).rows → u.index = c.2 → P.realPath c.1 = some u.real := by
    intro c u hc hu hi
    have hget : st.files[u.index]? = some c.1 := hi ▸ mem_zipIdx_iff_getElem?.mp hc
    obtain ⟨_, _, _, hvisit⟩ := finish_listed h (mem_finish_files.mpr ⟨u, hu, c.1, hget, rfl⟩)
    obtain ⟨q, hq, hrealq⟩ := (mem_winners hu).spelled
    rw [hget, Option.some.injEq] at hq
    subst hq
    have hvisit : VisitsFile P st.guard.followed c.1 _ _ := hvisit
    have heq := (hvisit.realOf h.follows).symm.trans hrealq
    rw [hvisit.realPath, (Prod.mk.inj heq).1]
  have heq : P.realPath a.1 = P.realPath b.1 := heq
  rw [hreal ha hv hvi, hreal hb hw hwi, Option.some.injEq] at heq
  rw [← hvi, ← hwi, key_injective _ hv hw heq]

theorem finish_plain_of_mem (hs : Sound P st) {walked : List FsPath} (hsub : ∀ q ∈ walked, q ∈ st.files)
    {path : FsPath} (hf : P.PlainFile path) (hmem : path ∈ walked) :
    ∃ f ∈ (P.finish st.guard walked).files, f.relative = path := by
  have hreal := (PlainFile.visits hf).realOf hs.follows
  obtain ⟨w, hw, hwr, hbest⟩ := exists_winner (P := P) (F := st.guard.followed) hmem
  rw [hreal] at hwr
  have hvia : w.viaLink = false := by
    by_contra hc
    have hlink := hbest.plain (by simpa using hc) path hmem (by rw [hreal, hwr])
    rw [hreal] at hlink
    simp at hlink
  obtain ⟨q, hq, hrealq⟩ := hbest.spelled
  obtain ⟨real, via, hv⟩ := hs.files q (hsub q (mem_of_getElem? hq))
  obtain ⟨rfl, rfl⟩ := Prod.mk.inj ((hv.realOf hs.follows).symm.trans hrealq)
  rw [hvia] at hv
  have hroot := hv.plain.2
  rw [hwr, append_cancel_right_eq] at hroot
  exact ⟨_, mem_finish_files.mpr ⟨w, hw, q, hq, rfl⟩, hroot.symm⟩

theorem finish_plain (h : P.runWalker = some st) {path : FsPath} (hf : P.PlainFile path) :
    ∃ f ∈ (P.finish st.guard st.files).files, f.relative = path :=
  finish_plain_of_mem (runWalker_sound h) (fun _ hq => hq) hf (hf.yielded h)

end Listed

/-- The walk ends, and lists every real file it comes to once, under its plain spelling or else the first one; none
outside the root or below an excluded directory. -/
theorem walk_lists_each_file_once (P : Project) : ∃ st w, P.runWalker = some st ∧ P.walk = some w ∧
    st.files.Pairwise WalkOrder ∧ (w.files.map fun f => P.realPath f.relative).Nodup ∧
    (∀ path, P.PlainFile path → ∃ f ∈ w.files, f.relative = path) ∧
    (∀ f ∈ w.files, ¬ P.PlainFile f.relative → f.relative ∈ st.files ∧
      ∀ q ∈ st.files, P.realPath q = P.realPath f.relative → q = f.relative ∨ WalkOrder f.relative q) ∧
    ∀ f ∈ w.files, ∃ name up, P.realPath f.relative = some (name :: up) ∧ P.Clean up := by
  obtain ⟨st, hst⟩ := P.runWalker_ends
  have hs := runWalker_sound hst
  have hall : st.files.filter (fun _ => true) = st.files := filter_true st.files
  have hwalk : P.walk = some (P.finish st.guard st.files) := by
    rw [walk, walkFiltered, hst, map_some, hall]
  obtain ⟨new, hnew, hyields⟩ := (runWalker_runs hst).yields (P.entriesAt_sorted P.rootReal)
  have hordered : st.files.Pairwise WalkOrder := by
    rw [hnew]
    exact hyields.ordered
  refine ⟨st, _, hst, hwalk, hordered, finish_reals_nodup hs, fun path hp => finish_plain hst hp, ?_, ?_⟩
  · intro f hf hplain
    obtain ⟨w, hbest, hget, hv⟩ := finish_listed hs hf
    refine ⟨mem_of_getElem? hget, fun q hq hreal => ?_⟩
    have hvia : w.viaLink = true := by
      by_contra hc
      rw [Bool.not_eq_true] at hc
      rw [hc] at hv
      exact hplain hv.plain.1
    obtain ⟨real, via, hvq⟩ := hs.files q hq
    rw [hv.realPath, hvq.realPath, some.injEq] at hreal
    subst hreal
    have hrealq := hvq.realOf hs.follows
    obtain ⟨j, hj⟩ := mem_iff_getElem?.mp hq
    have hlink := hbest.plain hvia q hq (by rw [hrealq])
    have hle := hbest.first j q hj (by rw [hrealq]) (hlink.trans hvia.symm)
    rcases Nat.lt_or_eq_of_le hle with hlt | heq
    · obtain ⟨hi, hgi⟩ := List.getElem?_eq_some_iff.mp hget
      obtain ⟨hj', hgj⟩ := List.getElem?_eq_some_iff.mp hj
      have := pairwise_iff_getElem.mp hordered w.index j hi hj' hlt
      rw [hgi, hgj] at this
      exact .inr this
    · rw [heq, hj, some.injEq] at hget
      exact .inl hget
  · intro f hf
    obtain ⟨w, _, _, hv⟩ := finish_listed hs hf
    obtain ⟨name, up, hreal, hclean⟩ := hv.clean hs.follows
    exact ⟨name, up, by rw [hv.realPath, hreal], hclean⟩

end Project

end GMesh
