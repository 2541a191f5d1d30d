import GMesh.LspBridge

namespace GMesh

open List Option

namespace PassState

variable {s s' : PassState} {q : Question} {owed handed gone : List Question}

def openQuestions (s : PassState) : List Question := s.queue ++ (s.deferred ++ s.inFlight.map Prod.snd)

def Balanced (s : PassState) (owed handed : List Question) : Prop :=
  ∃ lost, owed.Perm (handed ++ (s.openQuestions ++ lost)) ∧ ∀ q ∈ lost, q.accountedTo ∈ s.failedFiles

theorem Balanced.move (gone : List Question) (h : s.Balanced owed handed) (hfail : s.failedFiles ⊆ s'.failedFiles)
    (hopen : s.openQuestions.Perm (s'.openQuestions ++ gone)) (hgone : ∀ q ∈ gone, q.accountedTo ∈ s'.failedFiles) :
    s'.Balanced owed handed := by
  obtain ⟨lost, hperm, hlost⟩ := h
  refine ⟨gone ++ lost, ?_, ?_⟩
  · have hstep : (handed ++ (s.openQuestions ++ lost)).Perm (handed ++ (s'.openQuestions ++ (gone ++ lost))) := by
      rw [← append_assoc s'.openQuestions]
      exact (hopen.append_right lost).append_left handed
    exact hperm.trans hstep
  · intro p hp
    rcases mem_append.mp hp with hp | hp
    · exact hgone p hp
    · exact hfail (hlost p hp)

variable {rest : List Question} {id : Nat}

theorem Balanced.handOn {again : List Question} (h : s.Balanced owed handed)
    (hfail : s.failedFiles ⊆ s'.failedFiles) (hopen : s.openQuestions.Perm (q :: rest))
    (hopen' : s'.openQuestions.Perm (again ++ rest)) : s'.Balanced (owed ++ again) (handed ++ [q]) := by
  obtain ⟨lost, hperm, hlost⟩ := h
  refine ⟨lost, ?_, fun p hp => hfail (hlost p hp)⟩
  have hold : owed.Perm (handed ++ (q :: (rest ++ lost))) :=
    hperm.trans ((hopen.append_right lost).append_left handed)
  have hnew : (s'.openQuestions ++ lost).Perm (again ++ (rest ++ lost)) := by
    rw [← append_assoc]
    exact hopen'.append_right lost
  have hcount : ∀ p, List.count p (owed ++ again) = List.count p (handed ++ [q] ++ (s'.openQuestions ++ lost)) := by
    intro p
    have h₁ := hold.count_eq p
    have h₂ := hnew.count_eq p
    simp only [count_append, count_cons, count_nil] at h₁ h₂ ⊢
    omega
  exact perm_iff_count.mpr hcount

theorem openQuestions_requeue (quiet : Bool) : s.openQuestions.Perm (s.requeue quiet).openQuestions := by
  unfold requeue
  split
  · refine perm_iff_count.mpr fun p => ?_
    simp only [openQuestions, count_append, count_reverse, count_nil]
    omega
  · exact .refl _

theorem openQuestions_ask (hq : s.queue = q :: rest) : s.openQuestions.Perm (s.ask q rest).openQuestions := by
  refine perm_iff_count.mpr fun p => ?_
  simp only [openQuestions, ask, hq, map_append, map_cons, map_nil, count_append, count_cons, count_nil]
  omega

theorem openQuestions_land (hq : s.asked? id = some q) : s.openQuestions.Perm (q :: (s.land id).openQuestions) := by
  obtain ⟨e, he, rfl⟩ := map_eq_some_iff.mp hq
  have hmem : e ∈ s.inFlight := mem_of_find?_eq_some he
  obtain ⟨a, as, bs, hno, ha, hsplit, herase⟩ := exists_of_eraseP hmem (find?_some he)
  have hea : e = a := by
    rw [hsplit, find?_append, find?_eq_none.mpr (fun x hx => by simpa using hno x hx)] at he
    simpa [find?_cons, ha] using he.symm
  subst hea
  refine perm_iff_count.mpr fun p => ?_
  simp only [openQuestions, land, herase]
  rw [hsplit]
  simp only [map_append, map_cons, count_append, count_cons]
  omega

theorem openQuestions_split (s : PassState) (expired : List Nat) :
    s.openQuestions.Perm ((s.queue ++ (s.deferred ++ (s.inFlight.filter fun e => decide (e.1 ∉ expired)).map Prod.snd)) ++
      (s.inFlight.filter fun e => decide (e.1 ∈ expired)).map Prod.snd) := by
  have hparts := (filter_append_perm (fun e : Nat × Question => decide (e.1 ∈ expired)) s.inFlight).map Prod.snd
  refine perm_iff_count.mpr fun p => ?_
  have hc := hparts.count_eq p
  simp only [map_append, count_append, openQuestions, ← decide_not] at hc ⊢
  omega

/-- Where a write fails, the questions behind it are of files that fail anyway. -/
def WriteSpares (s : PassState) (room : Nat) (broken : Option Nat) : Prop :=
  ∀ k, broken = some k → k < room → ∀ q rest, s.queue.drop k = q :: rest →
    ∀ p ∈ rest, p.accountedTo = q.accountedTo ∨ p.accountedTo ∈ s.failedFiles

variable {exits : Bool} {broken : Option Nat} {room : Nat}

theorem Balanced.breakOff (h : s.Balanced owed handed) (hq : s.queue = q :: rest)
    (hrest : ∀ p ∈ rest, p.accountedTo = q.accountedTo ∨ p.accountedTo ∈ s.failedFiles) :
    (s.breakOff q exits).Balanced owed handed := by
  have hopen : s.openQuestions.Perm ((s.breakOff q exits).openQuestions ++ (q :: rest)) := by
    refine perm_iff_count.mpr fun p => ?_
    simp only [openQuestions, PassState.breakOff, fail, failFiles, hq, count_append, count_nil]
    omega
  refine h.move _ (fun f hf => mem_append_right _ hf) hopen ?_
  intro p hp
  rcases mem_cons.mp hp with rfl | hp
  · exact mem_append_left _ (by simp)
  · rcases hrest p hp with hsame | hfailed
    · exact mem_append_left _ (by simp [hsame])
    · exact mem_append_right _ hfailed

theorem Balanced.fill (h : s.Balanced owed handed)
    (hc : s.WriteSpares room broken) : (s.fill exits room broken).Balanced owed handed := by
  induction room generalizing s broken with
  | zero => exact h
  | succ room ih =>
    rw [PassState.fill]
    split
    next => exact h
    next q rest hq =>
      have hask : (s.ask q rest).Balanced owed handed :=
        h.move [] (fun f hf => hf) (by simpa using openQuestions_ask hq) (by simp)
      split
      next => exact h.breakOff hq (hc 0 rfl (by omega) q rest hq)
      next k =>
        refine ih hask ?_
        intro j hj hlt p behind hdrop
        cases hj
        exact hc (k + 1) rfl (by omega) p behind (by rw [hq]; exact hdrop)
      next => exact ih hask (fun k hk => by simp at hk)

theorem fill_inFlight (h : (s.fill exits room broken).inFlight = []) :
    s.inFlight = [] ∧ (room = 0 ∨ (s.fill exits room broken).queue = []) := by
  induction room generalizing s broken with
  | zero => exact ⟨h, .inl rfl⟩
  | succ room ih =>
    have hasked : ∀ q rest (k : Option Nat), ((s.ask q rest).fill exits room k).inFlight ≠ [] := by
      intro q rest k hk
      have hno := (ih hk).1
      simp [ask] at hno
    rw [PassState.fill] at h ⊢
    split at h
    next hq => exact ⟨h, .inr (by simpa using hq)⟩
    next q rest hq =>
      split at h
      next => exact ⟨h, .inr rfl⟩
      next k => exact absurd h (hasked q rest _)
      next => exact absurd h (hasked q rest _)

theorem filled_queue {budgets : Budgets} {t : Turn} (h : (s.filled budgets t).inFlight = []) :
    (s.filled budgets t).queue = [] := by
  obtain ⟨hnone, hroom⟩ := fill_inFlight h
  rcases hroom with hroom | hqueue
  · have hwidth : 0 < (s.requeue t.quiet).width budgets := by
      unfold width
      split <;> omega
    rw [hnone] at hroom
    simp at hroom
    omega
  · exact hqueue

/-- No round drops a question whose file it does not fail: behind a failed write, or deferred at the server's exit. -/
structure KeepsBooks (budgets : Budgets) (s : PassState) (t : Turn) : Prop where
  write : (s.requeue t.quiet).WriteSpares
    ((s.requeue t.quiet).width budgets - (s.requeue t.quiet).inFlight.length) t.brokenWrite
  exit : t.poll = .closed → t.pastDeadline = false → (s.filled budgets t).inFlight ≠ [] →
    ∀ p ∈ (s.filled budgets t).deferred, p.accountedTo ∈ (s.filled budgets t).close.failedFiles

theorem Balanced.filled {budgets : Budgets} {t : Turn} (h : s.Balanced owed handed) (hc : s.KeepsBooks budgets t) :
    (s.filled budgets t).Balanced owed handed := by
  have hre : (s.requeue t.quiet).Balanced owed handed := by
    refine h.move [] ?_ (by simpa using openQuestions_requeue t.quiet) (by simp)
    intro f hf
    unfold requeue
    split <;> exact hf
  exact hre.fill hc.write

section Rounds

variable (v : ServerView) (config : SemanticConfig) (index : SdkIndex)

def polled (s : PassState) (t : Turn) : Option (Question × ServerAnswer) :=
  match t.poll with
  | .answered id answer =>
    ((s.asked? id).filter fun q => !s.isDeferred q answer t.quietAfter).map fun q => (q, answer)
  | _ => none

def handedIn (budgets : Budgets) (s : PassState) (t : Turn) : Option (Question × ServerAnswer) :=
  if s.running ∧ t.pastDeadline = false then (s.filled budgets t).polled t else none

def followUps (budgets : Budgets) (s : PassState) (t : Turn) : List Question :=
  (handedIn budgets s t).elim [] fun h => (recordAnswer v config index (s.filled budgets t).answers h.1 h.2).2

def handedOn (budgets : Budgets) : List Turn → PassState → List (Question × ServerAnswer)
  | [], _ => []
  | t :: rest, s => (handedIn budgets s t).toList ++ handedOn budgets rest (s.round v config index budgets t)

def returned (budgets : Budgets) : List Turn → PassState → List Question
  | [], _ => []
  | t :: rest, s => followUps v config index budgets s t ++ returned budgets rest (s.round v config index budgets t)

def RunKeepsBooks (budgets : Budgets) : List Turn → PassState → Prop
  | [], _ => True
  | t :: rest, s => (s.running = true → s.KeepsBooks budgets t) ∧
      RunKeepsBooks budgets rest (s.round v config index budgets t)

end Rounds

section Receive

variable {v : ServerView} {config : SemanticConfig} {index : SdkIndex} {budgets : Budgets} {t : Turn}

theorem openQuestions_hand (q : Question) (answer : ServerAnswer) :
    (s.hand v config index q answer).openQuestions.Perm
      ((recordAnswer v config index s.answers q answer).2 ++ s.openQuestions) := by
  refine perm_iff_count.mpr fun p => ?_
  simp only [openQuestions, hand, count_append, count_reverse]
  omega

section

variable (h : s.Balanced owed handed)

include h

namespace Balanced

theorem defer (hq : s.asked? id = some q) : ((s.land id).defer q).Balanced owed handed := by
  refine h.move [] (fun f hf => hf) ?_ (by simp)
  refine perm_iff_count.mpr fun p => ?_
  have hc := (openQuestions_land hq).count_eq p
  simp only [openQuestions, PassState.defer, land, count_append, count_cons, count_nil] at hc ⊢
  omega

theorem abandon (gone : List Question) (hfail : s'.failedFiles = gone.map Question.accountedTo ++ s.failedFiles)
    (hopen : s.openQuestions.Perm (s'.openQuestions ++ gone)) : s'.Balanced owed handed := by
  refine h.move gone ?_ hopen fun p hp => ?_ <;> rw [hfail]
  · exact subset_append_right _ _
  · exact mem_append_left _ (mem_map_of_mem hp)

theorem refuse {reason : PassFailure} (hq : s.asked? id = some q) :
    (((s.land id).failFiles [q]).fail reason).Balanced owed handed := by
  refine h.move [q] (fun f hf => mem_append_right _ hf) ?_ (by simp [fail, failFiles])
  exact (openQuestions_land hq).trans (perm_append_singleton q _).symm

theorem retire (expired : List Nat) : (s.retire expired).Balanced owed handed := by
  simp only [PassState.retire]
  split
  next => exact h
  next =>
    exact h.abandon _ rfl (openQuestions_split s expired)

theorem close : s.close.Balanced owed handed := by
  refine h.abandon (s.inFlight.map Prod.snd ++ s.queue) rfl (perm_iff_count.mpr fun p => ?_)
  simp only [openQuestions, PassState.close, stop, fail, failFiles, map_nil, count_append, count_nil]
  omega

theorem receive :
    (s.receive v config index t.poll t.quietAfter).Balanced
      (owed ++ (s.polled t).elim [] fun h => (recordAnswer v config index s.answers h.1 h.2).2)
      (handed ++ (s.polled t).toList.map Prod.fst) := by
  unfold PassState.receive polled
  cases hp : t.poll with
  | answered id answer =>
    cases hq : s.asked? id with
    | none => simpa [hq] using h
    | some q =>
      by_cases hd : s.isDeferred q answer t.quietAfter
      · simpa [hq, hd, filter_some] using h.defer hq
      · have hhand : ((s.land id).hand v config index q answer).Balanced _ _ :=
          h.handOn (fun f hf => hf) (openQuestions_land hq) (openQuestions_hand q answer)
        simpa [hq, hd, land, filter_some] using hhand
  | failed id contentModified =>
    cases hq : s.asked? id with
    | none => simpa [hq] using h
    | some q =>
      simp only [hq, elim_none, toList_none, map_nil, append_nil]
      split
      · exact h.defer hq
      · exact h.refuse hq
  | noise => simpa using h
  | idle expired => simpa using h.retire expired
  | closed => simpa using h.close

theorem giveUp : s.giveUp.Balanced owed handed := by
  refine h.abandon (s.inFlight.map Prod.snd ++ (s.queue ++ s.deferred)) rfl (perm_iff_count.mpr fun p => ?_)
  simp only [openQuestions, PassState.giveUp, stop, fail, failFiles, map_nil, count_append, count_nil]
  omega

theorem closeDeferred : s.closeDeferred.Balanced owed handed := by
  refine h.abandon s.deferred rfl (perm_iff_count.mpr fun p => ?_)
  simp only [openQuestions, PassState.closeDeferred, stop, fail, failFiles, count_append, count_nil]
  omega

end Balanced

omit h in
theorem polled_none (h : s.inFlight = []) : s.polled t = none := by
  unfold polled
  split
  · simp [asked?, h]
  · rfl

/-- A round keeps every owed question handed on, open, or of a file that failed. -/
theorem Balanced.round (hc : s.running → s.KeepsBooks budgets t) :
    (s.round v config index budgets t).Balanced (owed ++ followUps v config index budgets s t)
      (handed ++ (handedIn budgets s t).toList.map Prod.fst) := by
  unfold PassState.round followUps handedIn
  cases hrun : s.running with
  | false => simpa using h
  | true =>
    have hf := h.filled (hc hrun)
    unfold settleRound
    by_cases hempty : (s.filled budgets t).inFlight = []
    · rw [polled_none hempty]
      simp only [ite_self, elim_none, toList_none, map_nil, append_nil, if_true, hempty, true_and]
      split
      · exact hf
      · split
        · exact hf.giveUp
        · split
          · exact hf.closeDeferred
          · exact hf
    · cases hd : t.pastDeadline with
      | true => simpa [hempty] using hf.giveUp
      | false => simpa [hempty] using hf.receive

end

def Ended (s : PassState) : Prop := s.running = false → ∀ p ∈ s.openQuestions, p.accountedTo ∈ s.failedFiles

theorem receive_running (h : t.poll ≠ .closed) :
    (s.receive v config index t.poll t.quietAfter).running = s.running := by
  unfold PassState.receive
  split
  · split
    · rfl
    · split <;> rfl
  · split
    · rfl
    · split <;> rfl
  · rfl
  · simp only [PassState.retire]
    split <;> rfl
  · next hc => exact absurd hc h

theorem fill_running {exits : Bool} : (s.fill exits room broken).running = s.running := by
  induction room generalizing s broken with
  | zero => rfl
  | succ room ih =>
    rw [PassState.fill]
    split
    · rfl
    · split
      · rfl
      · exact ih
      · exact ih

theorem filled_running : (s.filled budgets t).running = s.running := by
  have hre : (s.requeue t.quiet).running = s.running := by
    unfold requeue
    split <;> rfl
  rw [PassState.filled, fill_running, hre]

/-- A round that ends the pass leaves open only questions of files that failed. -/
theorem Ended.round (h : s.Ended) (hc : s.running → s.KeepsBooks budgets t) :
    (s.round v config index budgets t).Ended := by
  unfold PassState.round
  cases hrun : s.running with
  | false => simpa using h
  | true =>
    have hf : (s.filled budgets t).running := filled_running.trans hrun
    rw [if_pos rfl]
    unfold settleRound
    split
    next hnone =>
      intro _ p hp
      simp [openQuestions, stop, hnone.1, hnone.2, filled_queue hnone.1] at hp
    next =>
      split
      next =>
        intro _ p hp
        simp [openQuestions, PassState.giveUp, stop, fail, failFiles] at hp
      next hdeadline =>
        split
        next hempty =>
          split
          next =>
            intro _ p hp
            simp [openQuestions, PassState.closeDeferred, stop, fail, failFiles, hempty, filled_queue hempty] at hp
          next => exact fun hstop => absurd (hf.symm.trans hstop) (by simp)
        next hflight =>
          by_cases hclosed : t.poll = .closed
          · intro _ p hp
            rw [hclosed] at hp ⊢
            refine (hc hrun).exit hclosed (by simpa using hdeadline) hflight p ?_
            simpa [openQuestions, PassState.receive, PassState.close, stop, fail, failFiles] using hp
          · intro hstop
            rw [receive_running hclosed, hf] at hstop
            exact absurd hstop (by simp)

/-- Over a whole pass both are kept. -/
theorem run_books {turns : List Turn} (h : s.Balanced owed handed) (he : s.Ended)
    (hc : RunKeepsBooks v config index budgets turns s) :
    (s.run v config index budgets turns).Balanced (owed ++ returned v config index budgets turns s)
      (handed ++ (handedOn v config index budgets turns s).map Prod.fst) ∧
    (s.run v config index budgets turns).Ended := by
  induction turns generalizing s owed handed with
  | nil => exact ⟨by simpa [run, returned, handedOn] using h, he⟩
  | cons _ _ ih =>
    have hrest := ih (h.round hc.1) (he.round hc.1) hc.2
    refine ⟨?_, hrest.2⟩
    have hbal := hrest.1
    simp only [append_assoc, ← map_append] at hbal
    exact hbal

end Receive

end PassState

theorem startPass_balanced (asking : List Question) (warmedUp : Bool) (nextId : Nat) :
    (startPass asking warmedUp nextId).Balanced asking [] :=
  ⟨[], by simp [PassState.openQuestions, startPass], by simp⟩

theorem PassState.handed_of_covered {s : PassState} {owed handed : List Question} (h : s.Balanced owed handed)
    (he : s.Ended) (hend : s.running = false) {file : String} (hf : file ∈ s.covered) :
    (owed.filter fun q => q.accountedTo == file).Perm (handed.filter fun q => q.accountedTo == file) := by
  obtain ⟨lost, hperm, hlost⟩ := h
  have hnot := (mem_covered.mp hf).2
  have hnone : (s.openQuestions ++ lost).filter (fun q => q.accountedTo == file) = [] := by
    rw [filter_eq_nil_iff]
    intro q hq hfile
    have hfailed : q.accountedTo ∈ s.failedFiles := (mem_append.mp hq).elim (he hend q) (hlost q)
    exact hnot (beq_iff_eq.mp hfile ▸ hfailed)
  have hfilter := hperm.filter fun q => q.accountedTo == file
  rwa [filter_append, hnone, append_nil] at hfilter

/-- A file reported as finished had every question accounted to it handed on with an answer. -/
theorem covered_files_were_answered (v : ServerView) (config : SemanticConfig) (index : SdkIndex) (budgets : Budgets)
    (asking : List Question) (warmedUp : Bool) (nextId : Nat) (turns : List Turn)
    (hc : PassState.RunKeepsBooks v config index budgets turns (startPass asking warmedUp nextId))
    (hend : ((startPass asking warmedUp nextId).run v config index budgets turns).running = false) :
    let owed := asking ++ PassState.returned v config index budgets turns (startPass asking warmedUp nextId)
    let handed := (PassState.handedOn v config index budgets turns (startPass asking warmedUp nextId)).map Prod.fst
    (∀ file ∈ ((startPass asking warmedUp nextId).run v config index budgets turns).covered,
      (owed.filter fun q => q.accountedTo == file).Perm (handed.filter fun q => q.accountedTo == file)) ∧
    ∀ (b : LspBridge) (r : PassRequest), r.index = index → r.budgets = budgets →
      r.outcome = .asked warmedUp nextId turns → (r.plan config).asking = asking →
      ∀ q, q.accountedTo ∈ r.askedAbout config → handed.count q < owed.count q →
        ∃ out, b.answer v config r = some out ∧ q.accountedTo ∈ out.2.unfinished := by
  intro owed handed
  have hbooks := PassState.run_books (startPass_balanced asking warmedUp nextId)
    (fun hstop => absurd hstop (by simp [startPass])) hc
  have hcovered : ∀ file ∈ ((startPass asking warmedUp nextId).run v config index budgets turns).covered,
      (owed.filter fun q => q.accountedTo == file).Perm (handed.filter fun q => q.accountedTo == file) :=
    fun file hf => PassState.handed_of_covered hbooks.1 hbooks.2 hend hf
  refine ⟨hcovered, ?_⟩
  rintro b r rfl rfl hout rfl q hq hlost
  have hasking : (r.plan config).asking ≠ [] := by
    intro hnone
    simp [PassRequest.askedAbout, hnone] at hq
  have hscope : r.scope ≠ [] := by
    intro hnone
    simp [PassRequest.plan, hnone, questions, planFiles] at hasking
  refine ⟨_, by simp only [LspBridge.answer, if_neg hscope, if_neg hasking, hout, hend]; rfl, ?_⟩
  refine mem_append_left _ (mem_filter.mpr ⟨hq, decide_eq_true ?_⟩)
  intro hfinished
  have hperm := hcovered q.accountedTo (mem_filter.mp hfinished).1
  have hcount := hperm.count_eq q
  rw [count_filter (by simp), count_filter (by simp)] at hcount
  omega

def plainView : ServerView where
  digest fields := String.intercalate "|" fields
  alphanumeric := Char.isAlphanum
  relative := some
  toWireColumn _ column := column

def twoCallers : SdkIndex where
  files := [{ path := "a.ts", graph := { openSites := [{ fromId := "a", position := ⟨0, 0⟩ }] } },
    { path := "b.ts", graph := { openSites := [{ fromId := "b", position := ⟨0, 0⟩ }] } }]

def twoCallersPass (turns : List Turn) : PassRequest where
  files := []
  index := twoCallers
  budgets := {}
  outcome := .asked true 0 turns

theorem PassState.runKeepsBooks_of_calm {v : ServerView} {config : SemanticConfig} {index : SdkIndex} {budgets : Budgets}
    {turns : List Turn} {s : PassState} (h : ∀ t ∈ turns, t.brokenWrite = none ∧ t.poll ≠ .closed) :
    RunKeepsBooks v config index budgets turns s := by
  induction turns generalizing s with
  | nil => trivial
  | cons t _ ih =>
    obtain ⟨hwrite, hpoll⟩ := h t mem_cons_self
    refine ⟨fun _ => ⟨?_, fun hclosed => absurd hclosed hpoll⟩, ih fun u hu => h u (mem_cons_of_mem t hu)⟩
    intro k hk
    rw [hwrite] at hk
    simp at hk

def refusedSecond : List Turn := [{ poll := .answered 0 {} }, { poll := .failed 1 false }, { poll := .noise }]

/-- The second file's question is refused; the first file's was handed on. -/
theorem covered_files_refusedSecond :
    let asking := ((twoCallersPass refusedSecond).plan {}).asking
    ((asking ++ PassState.returned plainView {} twoCallers {} refusedSecond (startPass asking true 0)).filter
      fun q => q.accountedTo == "a.ts").Perm
    (((PassState.handedOn plainView {} twoCallers {} refusedSecond (startPass asking true 0)).map Prod.fst).filter
      fun q => q.accountedTo == "a.ts") :=
  (covered_files_were_answered plainView {} twoCallers {} _ true 0 refusedSecond
    (PassState.runKeepsBooks_of_calm (by simp [refusedSecond])) (by decide +kernel)).1 "a.ts" (by decide +kernel)

/-- The server is busy at the first question and exits before it answers the second. -/
def exitWhileDeferred : List Turn := [{ poll := .answered 0 {}, quietAfter := false }, { quiet := false, poll := .closed }]

/-- The server is busy at both, and the write that asks the second again fails. -/
def brokenReask : List Turn := [{ quiet := false, poll := .answered 0 {}, quietAfter := false },
  { quiet := false, poll := .answered 1 {}, quietAfter := false }, { brokenWrite := some 0, poll := .noise }]

/-- Either way the first file is called finished without an answer. -/
theorem covered_files_neverAnswered :
    (({} : LspBridge).answer plainView {} (twoCallersPass exitWhileDeferred)).map (·.2.unfinished) = some ["b.ts"] ∧
    PassState.handedOn plainView {} twoCallers {} exitWhileDeferred
      (startPass ((twoCallersPass exitWhileDeferred).plan {}).asking true 0) = [] ∧
    (({} : LspBridge).answer plainView {} (twoCallersPass brokenReask)).map (·.2.unfinished) = some ["b.ts"] ∧
    PassState.handedOn plainView {} twoCallers {} brokenReask
      (startPass ((twoCallersPass brokenReask).plan {}).asking true 0) = [] := by
  decide +kernel

end GMesh
