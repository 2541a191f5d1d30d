import GMesh.ProjectRuns

namespace GMesh

open Option

namespace Project

variable {P : Project} {F G : FollowedTable}

inductive Visits (P : Project) (F : FollowedTable) : FsPath → FsPath → Bool → Prop
  | root : Visits P F [] P.rootReal false
  | dir {dir real : FsPath} {via : Bool} {name : String} (hup : Visits P F dir real via)
      (hdir : P.disk.nodeAt real name = some .dir) (hi : P.ignored (name :: dir) = false)
      (hex : name ∉ P.excluded) : Visits P F (name :: dir) (name :: real) via
  | link {dir real target : FsPath} {via : Bool} {name : String} (hup : Visits P F dir real via)
      (hlink : P.disk.nodeAt real name = some (.link (.found target true)))
      (hf : F.find? (name :: dir) = some ⟨name :: dir, target⟩) : Visits P F (name :: dir) target true

inductive VisitsFile (P : Project) (F : FollowedTable) : FsPath → FsPath → Bool → Prop
  | file {dir real : FsPath} {via : Bool} {name : String} (hup : Visits P F dir real via)
      (hfile : P.disk.nodeAt real name = some .file) (hi : P.ignored (name :: dir) = false) :
      VisitsFile P F (name :: dir) (name :: real) via
  | link {dir real target : FsPath} {via : Bool} {name : String} (hup : Visits P F dir real via)
      (hlink : P.disk.nodeAt real name = some (.link (.found target false)))
      (hf : F.find? (name :: dir) = some ⟨name :: dir, target⟩) : VisitsFile P F (name :: dir) target true

def LinkAt (P : Project) (F : FollowedTable) (path : FsPath) (target : LinkTarget) : Prop :=
  ∃ name dir real via, path = name :: dir ∧ Visits P F dir real via ∧
    P.disk.nodeAt real name = some (.link target)

def FollowsLinks (P : Project) (F : FollowedTable) : Prop :=
  ∀ path f, F.find? path = some f → (∃ isDir, LinkAt P F path (.found f.real isDir)) ∧ P.Clean f.real

def Extends (G F : FollowedTable) : Prop := ∀ path f, F.find? path = some f → G.find? path = some f

variable {dir real : FsPath} {via : Bool}

theorem Visits.mono (hG : Extends G F) (h : Visits P F dir real via) : Visits P G dir real via := by
  induction h with
  | root => exact .root
  | dir _ hdir hi hex ih => exact ih.dir hdir hi hex
  | link _ hlink hf ih => exact ih.link hlink (hG _ _ hf)

variable {path : FsPath} {target : LinkTarget}

theorem VisitsFile.mono (hG : Extends G F) (h : VisitsFile P F path real via) : VisitsFile P G path real via := by
  cases h with
  | file hup hfile hi => exact .file (hup.mono hG) hfile hi
  | link hup hlink hf => exact .link (hup.mono hG) hlink (hG _ _ hf)

theorem LinkAt.mono (hG : Extends G F) (h : LinkAt P F path target) : LinkAt P G path target := by
  obtain ⟨name, dir, real, via, hp, hv, hn⟩ := h
  exact ⟨name, dir, real, via, hp, hv.mono hG, hn⟩

section

variable (hF : FollowsLinks P F)

include hF

theorem Visits.realOf (h : Visits P F dir real via) : P.realOf F dir = (real, via) := by
  induction dir generalizing real via with
  | nil =>
    cases h
    rfl
  | cons name dir ih =>
    cases h with
    | dir hup hdir =>
      have hnone : F.find? (name :: dir) = none := by
        by_contra hc
        obtain ⟨f, hf⟩ := ne_none_iff_exists'.mp hc
        obtain ⟨⟨isDir, name', dir', real', via', hp, hv, hn⟩, _⟩ := hF _ _ hf
        obtain ⟨rfl, rfl⟩ := List.cons.inj hp
        have heq := (ih hup).symm.trans (ih hv)
        rw [← (Prod.mk.inj heq).1, hdir] at hn
        simp at hn
      simp only [Project.realOf, hnone, ih hup]
    | link _ _ hf => simp only [Project.realOf, hf]

theorem Visits.unique {real' : FsPath} {via' : Bool} (h : Visits P F dir real via) (h' : Visits P F dir real' via') :
    real = real' ∧ via = via' :=
  Prod.mk.inj ((h.realOf hF).symm.trans (h'.realOf hF))

theorem LinkAt.unique {name : String} {node : FsNode} (h : LinkAt P F (name :: dir) target)
    (hv : Visits P F dir real via) (hn : P.disk.nodeAt real name = some node) : node = .link target := by
  obtain ⟨name', dir', real', via', hp, hv', hn'⟩ := h
  obtain ⟨rfl, rfl⟩ := List.cons.inj hp
  rw [(hv.unique hF hv').1, hn', some.injEq] at hn
  exact hn.symm

theorem VisitsFile.realOf (h : VisitsFile P F path real via) : P.realOf F path = (real, via) := by
  cases h with
  | @file dir _ _ name hup hfile =>
    have hnone : F.find? (name :: dir) = none := by
      by_contra hc
      obtain ⟨f, hf⟩ := ne_none_iff_exists'.mp hc
      obtain ⟨⟨isDir, hlink⟩, _⟩ := hF _ _ hf
      exact absurd (hlink.unique hF hup hfile) nofun
    simp only [Project.realOf, hnone, hup.realOf hF]
  | link _ _ hf => simp only [Project.realOf, hf]

omit hF in
theorem Visits.realPath (h : Visits P F dir real via) : P.realPath dir = some real := by
  induction h with
  | root => rfl
  | dir _ hdir _ _ ih => simp only [Project.realPath, ih, bind_some, hdir]
  | link _ hlink _ ih => simp only [Project.realPath, ih, bind_some, hlink]

omit hF in
theorem VisitsFile.realPath (h : VisitsFile P F path real via) : P.realPath path = some real := by
  cases h with
  | file hup hfile => simp only [Project.realPath, hup.realPath, bind_some, hfile]
  | link hup hlink => simp only [Project.realPath, hup.realPath, bind_some, hlink]

theorem Visits.clean (h : Visits P F dir real via) : P.Clean real := by
  induction h with
  | root => exact ⟨[], rfl, by simp⟩
  | dir _ _ _ hex ih =>
    obtain ⟨below, hb, hn⟩ := ih
    exact ⟨_ :: below, by rw [hb, List.cons_append], List.forall_mem_cons.mpr ⟨hex, hn⟩⟩
  | link _ _ hf => exact (hF _ _ hf).2

end

theorem Visits.plain (h : Visits P F dir real false) : P.PlainDir dir ∧ real = dir ++ P.rootReal := by
  induction dir generalizing real with
  | nil =>
    cases h
    exact ⟨.root, rfl⟩
  | cons _ dir ih =>
    cases h with
    | dir hup hdir hi hex =>
      obtain ⟨hp, rfl⟩ := ih hup
      exact ⟨.child hp hdir hi hex, rfl⟩

theorem PlainDir.visits (h : P.PlainDir dir) : Visits P F dir (dir ++ P.rootReal) false := by
  induction h with
  | root => exact .root
  | child _ hdir hi hex ih => exact ih.dir hdir hi hex

theorem VisitsFile.plain (h : VisitsFile P F path real false) : P.PlainFile path ∧ real = path ++ P.rootReal := by
  cases h with
  | file hup hfile hi =>
    obtain ⟨hp, rfl⟩ := hup.plain
    exact ⟨⟨hp, hfile, hi⟩, rfl⟩

theorem PlainFile.visits (h : P.PlainFile path) : VisitsFile P F path (path ++ P.rootReal) false := by
  cases path with
  | nil => exact h.elim
  | cons name dir => exact .file h.1.visits h.2.1 h.2.2

end Project

open KeyedTable List

variable {st' : WalkState} (e : Entered) {isDir : Bool}

namespace Entered

variable (path : FsPath)

theorem reached_first (via : Bool) : (e.reached path via).first = e.first := by
  unfold reached
  split <;> rfl

theorem reached_real (via : Bool) : (e.reached path via).real = e.real := by
  unfold reached
  split <;> rfl

theorem reached_plain {e : Entered} (path : FsPath) (via : Bool) (h : e.plain.isSome) :
    (e.reached path via).plain = e.plain := by
  unfold reached
  simp [isSome_iff_ne_none.mp h]

theorem reached_isSome : (e.reached path false).plain.isSome := by
  unfold reached
  split
  · rfl
  · next h => simpa [isSome_iff_ne_none] using h

end Entered

namespace Project

variable {P : Project}

/-- Links stay followed, directories entered under their first and plain spelling, and what was yielded stays. -/
structure Later (st' st : WalkState) : Prop where
  followed : Extends st'.guard.followed st.guard.followed
  entered : ∀ real e, st.guard.entered.find? real = some e →
    ∃ e', st'.guard.entered.find? real = some e' ∧ e'.first = e.first ∧ (e.plain.isSome → e'.plain = e.plain)
  files : st.files <+: st'.files
  judged : st.guard.judged <+: st'.guard.judged

theorem Later.refl (st : WalkState) : Later st st :=
  ⟨fun _ _ h => h, fun _ e h => ⟨e, h, rfl, fun _ => rfl⟩, prefix_refl _, prefix_refl _⟩

theorem Later.trans {a b c : WalkState} (h : Later c b) (h' : Later b a) : Later c a where
  followed path f hf := h.followed _ _ (h'.followed _ _ hf)
  entered real e he := by
    obtain ⟨e₁, h₁, hfirst, hplain⟩ := h'.entered real e he
    obtain ⟨e₂, h₂, hfirst', hplain'⟩ := h.entered real e₁ h₁
    exact ⟨e₂, h₂, hfirst'.trans hfirst, fun hs => (hplain' (hplain hs ▸ hs)).trans (hplain hs)⟩
  files := h'.files.trans h.files
  judged := h'.judged.trans h.judged

structure Sound (P : Project) (st : WalkState) : Prop where
  follows : FollowsLinks P st.guard.followed
  files : ∀ path ∈ st.files, ∃ real via, VisitsFile P st.guard.followed path real via
  plain : ∀ real e dir, st.guard.entered.find? real = some e → e.plain = some dir →
    P.PlainDir dir ∧ real = dir ++ P.rootReal

theorem enteredDir_find? (guard : GuardState) (path real : FsPath) :
    (P.enteredDir guard path).entered.find? real =
      if (P.realOf guard.followed path).1 = real then
        some (((guard.entered.find? real).getD ⟨real, path, none⟩).reached path (P.realOf guard.followed path).2)
      else guard.entered.find? real := by
  have hkey : ((guard.entered.find? (P.realOf guard.followed path).1).getD
      ⟨(P.realOf guard.followed path).1, path, none⟩).real = (P.realOf guard.followed path).1 := by
    cases hf : guard.entered.find? (P.realOf guard.followed path).1 with
    | none => rfl
    | some e => exact (find?_eq_some_iff.mp hf).2
  simp only [enteredDir, find?_put, Entered.reached_real, hkey]
  split
  · next h => rw [h]
  · rfl

variable {st : WalkState}

theorem enteredDir_later {path : FsPath} :
    Later (P.yieldDir { st with guard := P.enteredDir st.guard path } path) st where
  followed _ _ h := h
  entered real e he := by
    simp only [yieldDir, enteredDir_find?, he, getD_some]
    split
    · exact ⟨_, rfl, Entered.reached_first e _ _, fun hs => Entered.reached_plain _ _ hs⟩
    · exact ⟨e, rfl, rfl, fun _ => rfl⟩
  files := prefix_refl _
  judged := prefix_refl _

theorem note_later (st : WalkState) (judged : Judged) : Later (st.note judged) st where
  followed _ _ h := h
  entered _ e h := ⟨e, h, rfl, fun _ => rfl⟩
  files := prefix_refl _
  judged := prefix_append _ _

variable {dir real target : FsPath} {F : FollowedTable}

theorem put_extends (hF : FollowsLinks P F) {via : Bool} {name : String}
    (hv : Visits P F dir real via) (hn : P.disk.nodeAt real name = some (.link (.found target isDir))) :
    Extends (F.put ⟨name :: dir, target⟩) F := by
  intro path f hf
  rw [find?_put]
  split
  · next hp =>
    dsimp only at hp
    subst hp
    obtain ⟨⟨isDir', hlink⟩, _⟩ := hF _ _ hf
    have heq := hlink.unique hF hv hn
    simp only [FsNode.link.injEq, LinkTarget.found.injEq] at heq
    have hkey := (find?_eq_some_iff.mp hf).2
    rw [heq.1, ← hkey]
  · exact hf

section Step

variable {dir real : FsPath} {above : List FsPath} {st s : WalkState} {name : String} {node : FsNode}
  {sub : Option FsPath} {via : Bool}

theorem Met.later (h : Met P dir real above st name node s sub) (hs : Sound P st)
    (hv : Visits P st.guard.followed dir real via) (hn : P.disk.nodeAt real name = some node) : Later s st := by
  cases h with
  | ignored | excluded => exact .refl _
  | file => exact ⟨fun _ _ h => h, fun _ e h => ⟨e, h, rfl, fun _ => rfl⟩, prefix_append _ _, prefix_refl _⟩
  | dir => exact enteredDir_later
  | dangling | ancestor | entered | refused => exact note_later _ _
  | followDir _ hnew =>
    refine ⟨put_extends hs.follows hv hn, fun r e he => ⟨e, ?_, rfl, fun _ => rfl⟩, prefix_refl _, prefix_append _ _⟩
    simp only [yieldDir, WalkState.followDir, GuardState.note, find?_put]
    rw [if_neg]
    · exact he
    · rintro rfl
      rw [KeyedTable.contains, he] at hnew
      simp at hnew
  | followFile =>
    exact ⟨put_extends hs.follows hv hn, fun _ e h => ⟨e, h, rfl, fun _ => rfl⟩, prefix_append _ _, prefix_append _ _⟩

theorem put_follows (hF : FollowsLinks P F)
    (hv : Visits P F dir real via) (hn : P.disk.nodeAt real name = some (.link (.found target isDir)))
    (hclean : P.Clean target) : FollowsLinks P (F.put ⟨name :: dir, target⟩) := by
  have hext := put_extends hF hv hn
  intro path f hf
  rw [find?_put] at hf
  split at hf
  · next hp =>
    cases hf
    exact ⟨⟨isDir, name, dir, real, via, hp.symm, hv.mono hext, hn⟩, hclean⟩
  · obtain ⟨⟨isDir', hlink⟩, hc⟩ := hF _ _ hf
    exact ⟨⟨isDir', hlink.mono hext⟩, hc⟩

theorem enteredDir_plain {dir : FsPath} {e : Entered} {path r : FsPath} (hs : Sound P st)
    (hv : Visits P st.guard.followed path real via) (he : (P.enteredDir st.guard path).entered.find? r = some e)
    (hp : e.plain = some dir) : P.PlainDir dir ∧ r = dir ++ P.rootReal := by
  rw [enteredDir_find?, hv.realOf hs.follows] at he
  split at he
  · next hr =>
    subst hr
    cases he
    unfold Entered.reached at hp
    split at hp
    · next hvia =>
      simp only [Bool.and_eq_true, Bool.not_eq_true'] at hvia
      rw [hvia.1] at hv
      cases hp
      exact hv.plain
    · cases hf : st.guard.entered.find? real with
      | none =>
        rw [hf] at hp
        simp at hp
      | some e =>
        rw [hf] at hp
        exact hs.plain _ _ _ hf hp
  · exact hs.plain _ _ _ he hp

/-- Meeting an entry keeps what the walk says of the tree so. -/
theorem Met.sound (h : Met P dir real above st name node s sub) (hs : Sound P st)
    (hv : Visits P st.guard.followed dir real via) (hn : P.disk.nodeAt real name = some node) : Sound P s := by
  have hlater := h.later hs hv hn
  have hold : ∀ path ∈ st.files, ∃ r v, VisitsFile P s.guard.followed path r v := by
    intro path hp
    obtain ⟨r, v, hf⟩ := hs.files path hp
    exact ⟨r, v, hf.mono hlater.followed⟩
  cases h with
  | ignored | excluded | dangling | ancestor | entered | refused => exact ⟨hs.follows, hold, hs.plain⟩
  | dir hi hex => exact ⟨hs.follows, hold, fun r e d he hp => enteredDir_plain hs (hv.dir hn hi hex) he hp⟩
  | file hi =>
    refine ⟨hs.follows, fun path hp => ?_, hs.plain⟩
    rcases mem_append.mp hp with hp | hp
    · exact hold path hp
    · rw [mem_singleton.mp hp]
      exact ⟨_, _, .file hv hn hi⟩
  | followDir hclean hnew =>
    refine ⟨put_follows hs.follows hv hn hclean, hold, fun r e d he hp => ?_⟩
    simp only [yieldDir, WalkState.followDir, GuardState.note, find?_put] at he
    split at he
    · cases he
      simp at hp
    · exact hs.plain r e d he hp
  | followFile hclean =>
    refine ⟨put_follows hs.follows hv hn hclean, fun path hp => ?_, hs.plain⟩
    rcases mem_append.mp hp with hp | hp
    · exact hold path hp
    · rw [mem_singleton.mp hp]
      exact ⟨_, _, .link (hv.mono hlater.followed) hn
        (by simp [WalkState.yieldFile, WalkState.followFile, GuardState.note])⟩

theorem Met.visits {sub : FsPath} (h : Met P dir real above st name node s (some sub)) (hs : Sound P st)
    (hv : Visits P st.guard.followed dir real via) (hn : P.disk.nodeAt real name = some node) :
    ∃ via', Visits P s.guard.followed (name :: dir) sub via' := by
  have hlater := h.later hs hv hn
  cases h with
  | dir hi hex => exact ⟨via, hv.dir hn hi hex⟩
  | followDir hclean hnew =>
    exact ⟨true, (hv.mono hlater.followed).link hn (by simp [yieldDir, WalkState.followDir, GuardState.note])⟩

end Step

variable {entries : List (String × FsNode)}

/-- Whatever meeting an entry keeps, walking a directory keeps: `J` between entries, `C` of the directory. -/
theorem Runs.keeps {J : WalkState → Prop} {C : FsPath → FsPath → List FsPath → WalkState → Prop}
    (hmono : ∀ {dir real above st st'}, C dir real above st → Later st' st → C dir real above st')
    (hmeet : ∀ {dir real above st s name node sub}, J st → C dir real above st →
      P.disk.nodeAt real name = some node → Met P dir real above st name node s sub →
      J s ∧ Later s st ∧ ∀ d ∈ sub, C (name :: dir) d (d :: above) s) {above : List FsPath}
    (h : Runs P dir real above entries st st') (hJ : J st) (hC : C dir real above st) : J st' ∧ Later st' st := by
  induction h with
  | nil => exact ⟨hJ, .refl _⟩
  | flat hnode hmet _ ih =>
    obtain ⟨hJ', hl, _⟩ := hmeet hJ hC hnode hmet
    obtain ⟨hJ'', hl'⟩ := ih hJ' (hmono hC hl)
    exact ⟨hJ'', hl'.trans hl⟩
  | deep hnode hmet _ _ ihsub ihrest =>
    obtain ⟨hJ₁, hl₁, hC₁⟩ := hmeet hJ hC hnode hmet
    obtain ⟨hJ₂, hl₂⟩ := ihsub hJ₁ (hC₁ _ rfl)
    obtain ⟨hJ₃, hl₃⟩ := ihrest hJ₂ (hmono hC (hl₂.trans hl₁))
    exact ⟨hJ₃, hl₃.trans (hl₂.trans hl₁)⟩

theorem Runs.sound {above : List FsPath} {via : Bool} (h : Runs P dir real above entries st st')
    (hs : Sound P st) (hv : Visits P st.guard.followed dir real via) : Sound P st' ∧ Later st' st :=
  h.keeps (J := Sound P) (C := fun dir real _ st => ∃ via, Visits P st.guard.followed dir real via)
    (fun ⟨via, hv⟩ hl => ⟨via, hv.mono hl.followed⟩)
    (fun hs ⟨_, hv⟩ hn hmet =>
      ⟨hmet.sound hs hv hn, hmet.later hs hv hn, fun _ hd => by cases hd; exact hmet.visits hs hv hn⟩)
    hs ⟨via, hv⟩

theorem walkStart_sound (P : Project) : Sound P P.walkStart :=
  ⟨fun _ _ hf => by simp [walkStart, yieldDir, guardStart] at hf, fun _ hp => by simp [walkStart, yieldDir] at hp,
    fun r e d he hp => by
      simp only [walkStart, yieldDir, guardStart, find?_put, find?_empty, ite_none_right_eq_some] at he
      obtain ⟨rfl, he⟩ := he
      cases he
      cases hp
      exact ⟨.root, rfl⟩⟩

theorem runWalker_runs (h : P.runWalker = some st) :
    Runs P [] P.rootReal [P.rootReal] (P.disk.entriesAt P.rootReal) P.walkStart st :=
  visitDir_runs h

theorem runWalker_sound (h : P.runWalker = some st) : Sound P st :=
  ((runWalker_runs h).sound (walkStart_sound P) .root).1

/-- A walk of a directory has met each of its entries. -/
theorem Runs.met {real : FsPath} {above : List FsPath} {entries : List (String × FsNode)} {st : WalkState}
    {via : Bool} (h : Runs P dir real above entries st st') (hs : Sound P st)
    (hv : Visits P st.guard.followed dir real via) {name : String} {node : FsNode} (he : (name, node) ∈ entries) :
    ∃ s s₁ sub, Sound P s ∧ Visits P s.guard.followed dir real via ∧ Met P dir real above s name node s₁ sub ∧
      Later st' s₁ ∧
      ∀ d ∈ sub, ∃ s₂, Runs P (name :: dir) d (d :: above) (P.disk.entriesAt d) s₁ s₂ ∧ Later st' s₂ := by
  induction h with
  | nil => simp at he
  | flat hnode hmet hrest ih =>
    have hs' := hmet.sound hs hv hnode
    have hv' := hv.mono (hmet.later hs hv hnode).followed
    rcases mem_cons.mp he with he | he
    · cases he
      exact ⟨_, _, none, hs, hv, hmet, (hrest.sound hs' hv').2, nofun⟩
    · exact ih hs' hv' he
  | deep hnode hmet hsub hrest _ ih =>
    have hs' := hmet.sound hs hv hnode
    have hl := hmet.later hs hv hnode
    obtain ⟨via', hvsub⟩ := hmet.visits hs hv hnode
    obtain ⟨hs'', hl'⟩ := hsub.sound hs' hvsub
    have hv'' := hv.mono (hl'.trans hl).followed
    rcases mem_cons.mp he with he | he
    · cases he
      have hl'' := (hrest.sound hs'' hv'').2
      refine ⟨_, _, some _, hs, hv, hmet, hl''.trans hl', fun d hd => ?_⟩
      cases hd
      exact ⟨_, hsub, hl''⟩
    · exact ih hs'' hv'' he

variable (h : P.runWalker = some st)

include h

/-- The walk comes to every plain directory under its plain spelling. -/
theorem PlainDir.walked (hd : P.PlainDir dir) :
    (∃ above s s', Sound P s ∧ Later st s' ∧
      Runs P dir (dir ++ P.rootReal) above (P.disk.entriesAt (dir ++ P.rootReal)) s s') ∧
      ∃ e, st.guard.entered.find? (dir ++ P.rootReal) = some e ∧ e.plain = some dir := by
  induction hd with
  | root =>
    have hr := runWalker_runs h
    refine ⟨⟨_, _, st, walkStart_sound P, .refl st, hr⟩, ?_⟩
    obtain ⟨e, he, _, hplain⟩ := (hr.sound (walkStart_sound P) .root).2.entered P.rootReal ⟨P.rootReal, [], some []⟩
      (by simp [walkStart, yieldDir, guardStart])
    exact ⟨e, he, hplain rfl⟩
  | @child name up hup hdir hi hex ih =>
    obtain ⟨⟨above, s, s', hs, hlast, hr⟩, _⟩ := ih
    obtain ⟨t, t₁, sub, ht, hv, hmet, hl, hsub⟩ := hr.met hs hup.visits (nodeAt_eq_some.mp hdir)
    have hsound := hmet.sound ht hv hdir
    cases hmet with
    | ignored hi' => simp [hi] at hi'
    | excluded hex' => exact absurd hex' hex
    | dir =>
      obtain ⟨t₂, hr₂, hl₂⟩ := hsub _ rfl
      refine ⟨⟨_, _, t₂, hsound, hlast.trans hl₂, hr₂⟩, ?_⟩
      have hreal := (hv.dir hdir hi hex).realOf ht.follows
      have hfind := enteredDir_find? (P := P) t.guard (name :: up) (name :: (up ++ P.rootReal))
      rw [if_pos (by rw [hreal]), hreal] at hfind
      obtain ⟨e, he, _, hplain⟩ := (hlast.trans hl).entered _ _ hfind
      have hsome := hplain (Entered.reached_isSome _ _) ▸ Entered.reached_isSome _ _
      obtain ⟨q, hq⟩ := isSome_iff_exists.mp hsome
      obtain ⟨_, heq⟩ := (runWalker_sound h).plain _ _ _ he hq
      rw [← cons_append, append_cancel_right_eq] at heq
      exact ⟨e, he, heq ▸ hq⟩

theorem PlainFile.yielded {path : FsPath} (hf : P.PlainFile path) : path ∈ st.files := by
  cases path with
  | nil => exact hf.elim
  | cons name up =>
    obtain ⟨hup, hfile, hi⟩ := hf
    obtain ⟨⟨above, s, s', hs, hlast, hr⟩, _⟩ := hup.walked h
    obtain ⟨t, t₁, sub, _, _, hmet, hl, _⟩ := hr.met hs hup.visits (nodeAt_eq_some.mp hfile)
    refine (hlast.trans hl).files.subset ?_
    cases hmet with
    | ignored hi' => simp [hi] at hi'
    | excluded _ hne => exact absurd rfl hne
    | file => simp [WalkState.yieldFile]

end Project

end GMesh
