import GMesh.SessionRows
import GMesh.ImportOutcome

namespace GMesh

open Option Function

namespace PluginSession

variable {Project : Type} {x : PluginExtractor Project} {s t u : PluginSession Project}

@[simp] theorem presenceChanged_files (s : PluginSession Project) (path : String) (present : Bool) :
    (s.presenceChanged x path present).files = s.files := by
  unfold presenceChanged
  split <;> rfl

@[simp] theorem ensureProject_files (s : PluginSession Project) (loaded : Option Project) :
    (s.ensureProject loaded).files = s.files := by
  unfold ensureProject
  split <;> rfl

@[simp] theorem sourceChanged_files (s : PluginSession Project) (path : String) (source : Option String) :
    (s.sourceChanged x path source).files = s.files := by
  unfold sourceChanged
  split <;> rfl

@[simp] theorem updated_files (s : PluginSession Project) (path source : String) (loaded : Option Project) :
    (s.updated x path source loaded).files = s.files := by
  simp [updated]

theorem baseline_congr (h : s.files = t.files) (path : String) : s.baseline path = t.baseline path := by
  unfold baseline
  rw [h]

theorem isReported_congr (h : s.files = t.files) (path source : String) :
    s.isReported path source = t.isReported path source := by
  unfold isReported
  rw [h]

inductive Answered (x : PluginExtractor Project) (s : PluginSession Project) (path : String) (reextract : Bool)
    (loaded : Option Project) : Option String → (String → Option SessionEntry) → FileChangeDiff → Prop
  | unclaimed (source : Option String) (hclaims : x.claims path = false) : Answered x s path reextract loaded source s.files {}
  | unread (hclaims : x.claims path = true) : Answered x s path reextract loaded none
      (Function.update s.files path none) (diffFile (s.baseline path) {})
  | unchanged (hclaims : x.claims path = true) (text : String) (hre : reextract = false)
      (hreported : s.isReported path text = true) : Answered x s path reextract loaded (some text) s.files {}
  | failed (hclaims : x.claims path = true) (text : String) (hx : s.extraction x path text loaded = none) :
      Answered x s path reextract loaded (some text) s.files {}
  | extracted (hclaims : x.claims path = true) (text : String) (graph : FileGraph)
      (hx : s.extraction x path text loaded = some graph) : Answered x s path reextract loaded (some text)
      (Function.update s.files path (some ⟨text, graph, true⟩)) (diffFile (s.baseline path) graph)

/-- How a session answers a changed file. -/
theorem fileChanged_answered (x : PluginExtractor Project) (s : PluginSession Project) (path : String)
    (reextract : Bool) (source : Option String) (loaded : Option Project) :
    Answered x s path reextract loaded source (s.fileChanged x path reextract source loaded).1.files
      (s.fileChanged x path reextract source loaded).2 := by
  by_cases hclaims : x.claims path
  · cases source with
    | none =>
      have hfiles : (s.fileChanged x path reextract none loaded).1.files = Function.update s.files path none := by
        simp [fileChanged, hclaims, remove]
      have hdiff : (s.fileChanged x path reextract none loaded).2 = diffFile (s.baseline path) {} := by
        simp only [fileChanged, hclaims]
        exact congrArg (diffFile · {}) (baseline_congr (presenceChanged_files s path false) path)
      rw [hfiles, hdiff]
      exact .unread hclaims
    | some text =>
      have hreport := isReported_congr (presenceChanged_files (x := x) s path true) path text
      by_cases hsame : (!reextract && s.isReported path text)
      · have hanswer : s.fileChanged x path reextract (some text) loaded = (s.presenceChanged x path true, {}) := by
          simp [fileChanged, hclaims, hreport, hsame]
        rw [hanswer, presenceChanged_files]
        rw [Bool.and_eq_true, Bool.not_eq_true'] at hsame
        exact .unchanged hclaims text hsame.1 hsame.2
      · cases hx : s.extraction x path text loaded with
        | none =>
          have hanswer : s.fileChanged x path reextract (some text) loaded = (s.updated x path text loaded, {}) := by
            simp [fileChanged, hclaims, hreport, hsame, hx]
          rw [hanswer, updated_files]
          exact .failed hclaims text hx
        | some graph =>
          have hanswer : s.fileChanged x path reextract (some text) loaded =
              ((s.updated x path text loaded).insert path ⟨text, graph, true⟩, diffFile (s.baseline path) graph) := by
            simp [fileChanged, hclaims, hreport, hsame, hx, baseline_congr (updated_files s path text loaded)]
          rw [hanswer]
          show Answered x s path reextract loaded (some text) (Function.update _ path _) _
          rw [updated_files]
          exact .extracted hclaims text graph hx
  · have hanswer : s.fileChanged x path reextract source loaded = (s, {}) := by simp [fileChanged, hclaims]
    rw [hanswer]
    exact .unclaimed source (Bool.eq_false_iff.mpr hclaims)

theorem Answered.file {path p : String} {reextract : Bool} {loaded : Option Project} {source : Option String}
    {files : String → Option SessionEntry} {d : FileChangeDiff} (h : Answered x s path reextract loaded source files d)
    {e : SessionEntry} (he : files p = some e) : s.files p = some e ∨
      (p = path ∧ x.claims path ∧ ∃ text, s.extraction x path text loaded = some e.graph) := by
  cases h with
  | unclaimed | unchanged | failed => exact .inl he
  | unread hclaims =>
    by_cases hp : p = path
    · subst hp
      rw [update_self] at he
      cases he
    · rw [update_of_ne hp] at he
      exact .inl he
  | extracted hclaims text _ hgraph =>
    by_cases hp : p = path
    · subst hp
      rw [update_self] at he
      cases he
      exact .inr ⟨rfl, hclaims, text, hgraph⟩
    · rw [update_of_ne hp] at he
      exact .inl he

def Hydrates (x : PluginExtractor Project) (s t : PluginSession Project) : Prop :=
  ∀ path, t.files path = s.files path ∨ (s.files path = none ∧ x.claims path = true ∧
    ∃ e project, t.files path = some e ∧ e.reported = false ∧ x.extract project path e.source = some e.graph)

theorem Hydrates.of_files (h : t.files = s.files) : Hydrates x s t := fun path => .inl (congrFun h path)

theorem Hydrates.trans (h : Hydrates x s t) (h' : Hydrates x t u) : Hydrates x s u := by
  intro path
  rcases h' path with he | ⟨hnone, hadded⟩
  · rw [he]
    exact h path
  · rcases h path with he | ⟨_, _, e, _, hsome, _⟩
    · exact .inr ⟨he ▸ hnone, hadded⟩
    · rw [hnone] at hsome
      cases hsome

theorem Hydrates.insert {path text : String} {project : Project} {graph : FileGraph} (hnone : s.files path = none)
    (hclaims : x.claims path) (hx : x.extract project path text = some graph) :
    Hydrates x s (s.insert path ⟨text, graph, false⟩) := by
  intro p
  by_cases hp : p = path
  · subst hp
    exact .inr ⟨hnone, hclaims, ⟨text, graph, false⟩, project, update_self .., rfl, hx⟩
  · exact .inl (update_of_ne hp ..)

theorem hydrateFiles_hydrates (x : PluginExtractor Project) (loaded : Option Project)
    (scope : List (String × Option String)) (s : PluginSession Project) :
    Hydrates x s (hydrateFiles x loaded scope s).1 := by
  fun_induction hydrateFiles x loaded scope s with
  | case1 s => exact .of_files rfl
  | case2 _ _ _ _ _ ih => exact ih
  | case3 _ _ _ _ ih => exact ih
  | case4 _ _ _ _ _ t => exact .of_files (by simp [t])
  | case5 _ _ _ _ _ t _ _ _ ih => exact Hydrates.trans (.of_files (by simp [t])) ih
  | case6 path _ s hskip source t project _ graph hx ih =>
    have hfiles : t.files = s.files := by simp [t]
    simp only [Bool.or_eq_true, Bool.not_eq_true', not_or] at hskip
    obtain ⟨hnone, hclaims⟩ := hskip
    have hadd := @Hydrates.insert Project x t path source project graph
      (by rw [hfiles]; exact not_isSome_iff_eq_none.mp hnone) (Bool.eq_true_of_not_eq_false hclaims) hx
    exact Hydrates.trans (.of_files hfiles) (hadd.trans ih)

theorem hydrate_hydrates (x : PluginExtractor Project) (configured : Bool) (loaded : Option Project)
    (scope : List (String × Option String)) (s : PluginSession Project) :
    Hydrates x s (hydrate x configured loaded scope s).1 := by
  unfold hydrate
  split
  · exact hydrateFiles_hydrates x loaded scope s
  · exact .of_files rfl

theorem semanticPass_hydrates (x : PluginExtractor Project) (s : PluginSession Project) (configured : Bool)
    (files walk : List (String × Option String)) (loadedForWalk loadedForFiles : Option Project) :
    Hydrates x s (s.semanticPass x configured files walk loadedForWalk loadedForFiles) := by
  have hwalk : Hydrates x s { (hydrate x configured loadedForWalk walk s).1 with
      projectHydrated := (hydrate x configured loadedForWalk walk s).2 } :=
    fun path => hydrate_hydrates x configured loadedForWalk walk s path
  unfold semanticPass
  dsimp only
  split
  · split
    · exact hwalk
    · exact .of_files rfl
  · refine Hydrates.trans ?_ (hydrate_hydrates x configured loadedForFiles files _)
    split
    · exact hwalk
    · exact .of_files rfl

theorem filesCreated_files (s : PluginSession Project) (files : List (String × Bool)) :
    (s.filesCreated x files).files = s.files := by
  unfold filesCreated
  split
  · rfl
  · refine List.foldlRecOn (motive := fun t : PluginSession Project => t.files = s.files) _ _ rfl fun t ht f _ => ?_
    rw [presenceChanged_files, ht]

end PluginSession

structure Store.Rewrites (ids : IndexIds) (s t : Store) (path : String) (next : FileGraph) : Prop where
  owned : t.FileOwned ids
  same : ∀ p, p ≠ path → p ≠ "" → s.SameFile t p
  holds : path ≠ "" → s.Holds t path next

namespace SessionWorld

variable {Project : Type} {ids : IndexIds} {x : PluginExtractor Project} {w : SessionWorld Project} {path : String}
  {reextract : Bool} {disk : DiskFile} {loaded : Option Project} {next : FileGraph}

theorem retell_reported {e : SessionEntry} (h : e.reported) (told : Option (String × FileGraph))
    (disk : DiskFile) : retell told disk (some e) = some (e.source, e.graph) := by
  have hkept : Option.filter (·.reported) (some e) = some e := by simp [filter_some, h]
  unfold retell
  rw [hkept]

/-- What the session reported core was last told, and core's rows are as told. -/
structure Current (ids : IndexIds) (x : PluginExtractor Project) (w : SessionWorld Project) : Prop where
  owned : w.store.FileOwned ids
  entry : ∀ path e, w.session.files path = some e → x.claims path = true ∧ e.graph.Owned ids path
  reported : ∀ path e, w.session.files path = some e → e.reported = true → w.told path = some (e.source, e.graph)
  told : ∀ path text g, w.told path = some (text, g) →
    path ≠ "" ∧ g.Owned ids path ∧ w.store.Holds w.store path g

/-- The extractor gives rows of the file it is asked about, and claims files only. -/
structure Extracts (ids : IndexIds) (x : PluginExtractor Project) : Prop where
  claims : ∀ path, x.claims path = true → path ≠ ""
  extract : ∀ project path text g, x.claims path = true → x.extract project path text = some g → g.Owned ids path

theorem Extracts.extraction (hx : Extracts ids x) {s : PluginSession Project} {text : String}
    (hclaims : x.claims path) (h : s.extraction x path text loaded = some next) : next.Owned ids path := by
  obtain ⟨project, _, hextract⟩ := bind_eq_some_iff.mp h
  exact hx.extract project path text next hclaims hextract

namespace Current

theorem start {s : Store} (hs : s.FileOwned ids) : Current ids x { store := s } where
  owned := hs
  entry path e h := by cases h
  reported path e h := by cases h
  told path text g h := by cases h

variable (hw : w.Current ids x)

include hw

theorem baseline {g : FileGraph} (h : w.session.baseline path = some g) :
    g.Owned ids path ∧ w.store.Holds w.store path g := by
  obtain ⟨e, he, rfl⟩ := map_eq_some_iff.mp h
  obtain ⟨hfile, hreported⟩ := filter_eq_some_iff.mp he
  exact (hw.told path _ _ (hw.reported path e hfile hreported)).2

theorem rewrites (disk : DiskFile) (previous : Option FileGraph)
    (hp : path ≠ "" ∨ disk = .gone) (hnext : next.Owned ids path) (hgone : disk = .gone → next = {})
    (hprevious : ∀ g, previous = some g → w.session.baseline path = some g) :
    w.store.Rewrites ids (w.store.takeFileChange ids.toContainerIds path disk (diffFile previous next)) path next := by
  have hd := takeFileChange_replaces hw.owned.toOwnsRows hp hnext hgone fun g hg => hw.baseline (hprevious g hg)
  exact ⟨hd.fileOwned hnext hw.owned, fun p => hd.sameFile hnext hw.owned, fun hp => hd.holds hnext hw.owned hp⟩

variable {session : PluginSession Project}

theorem of_files (h : ∀ path e, session.files path = some e → w.session.files path = some e ∨
      (e.reported = false ∧ x.claims path ∧ e.graph.Owned ids path)) :
    Current ids x { w with session := session } where
  owned := hw.owned
  entry path e he := by
    rcases h path e he with hold | ⟨_, hnew⟩
    · exact hw.entry path e hold
    · exact hnew
  reported path e he hreported := by
    rcases h path e he with hold | ⟨hnot, _⟩
    · exact hw.reported path e hold hreported
    · rw [hnot] at hreported
      cases hreported
  told := hw.told

variable (hx : Extracts ids x)

include hx

theorem hydrated (h : PluginSession.Hydrates x w.session session) : Current ids x { w with session := session } := by
  refine hw.of_files fun path e he => ?_
  rcases h path with hsame | ⟨_, hclaims, e', project, hsome, hnot, hextract⟩
  · exact .inl (hsame ▸ he)
  · rw [he] at hsome
    cases hsome
    exact .inr ⟨hnot, hclaims, hx.extract project path _ _ hclaims hextract⟩

omit hx in
theorem retell_unchanged (path text : String) :
    retell (w.told path) (.readable text) (w.session.files path) = w.told path := by
  cases hfile : w.session.files path with
  | none => rfl
  | some e =>
    cases hreported : e.reported with
    | true =>
      rw [hw.reported path e hfile hreported]
      exact retell_reported hreported _ _
    | false =>
      have hkept : Option.filter (·.reported) (some e) = none := by simp [filter_some, hreported]
      unfold retell
      rw [hkept]

/-- Core takes the answer as the file's new rows, or stays as it was told. -/
theorem answered {source : Option String} {files : String → Option SessionEntry} {d : FileChangeDiff}
    (hsource : disk.source = source) (h : w.session.Answered x path reextract loaded source files d) :
    (w.store.takeFileChange ids.toContainerIds path disk d = w.store ∧ disk ≠ .gone ∧
      (retell (w.told path) disk (files path) = w.told path ∨ retell (w.told path) disk (files path) = none)) ∨
    ∃ next, w.store.Rewrites ids (w.store.takeFileChange ids.toContainerIds path disk d) path next ∧
      ((next = {} ∧ retell (w.told path) disk (files path) = none) ∨
        ∃ text, disk = .readable text ∧ path ≠ "" ∧ next.Owned ids path ∧
          retell (w.told path) disk (files path) = some (text, next)) := by
  have hreadable : ∀ text, disk.source = some text → disk = .readable text := by
    intro text htext
    cases disk with
    | readable _ => exact congrArg DiskFile.readable (Option.some.inj htext)
    | gone => cases htext
    | unreadable => cases htext
  cases h with
  | unclaimed _ hclaims =>
    have hnone : w.session.files path = none := by
      cases hfile : w.session.files path with
      | none => rfl
      | some e =>
        have htrue := (hw.entry path e hfile).1
        rw [hclaims] at htrue
        cases htrue
    rw [hnone]
    cases disk with
    | gone =>
      have hrow := hw.rewrites .gone none (.inr rfl) (.empty ids path) (fun _ => rfl) fun g hg => by cases hg
      exact .inr ⟨{}, hrow, Or.inl ⟨rfl, rfl⟩⟩
    | unreadable => exact .inl ⟨takeFileChange_empty _ _ _ (by decide), by decide, Or.inr rfl⟩
    | readable text => exact .inl ⟨takeFileChange_empty _ _ _ (by simp), by simp, Or.inl rfl⟩
  | unread hclaims =>
    have hrow := hw.rewrites disk _ (.inl (hx.claims path hclaims)) (.empty ids path) (fun _ => rfl) fun g hg => hg
    refine .inr ⟨{}, hrow, Or.inl ⟨rfl, ?_⟩⟩
    rw [update_self]
    cases disk with
    | readable text => cases hsource
    | gone => rfl
    | unreadable => rfl
  | unchanged hclaims text | failed hclaims text =>
    obtain rfl := hreadable text hsource
    exact .inl ⟨takeFileChange_empty _ _ _ (by simp), by simp, Or.inl (hw.retell_unchanged path text)⟩
  | extracted hclaims text graph hgraph =>
    obtain rfl := hreadable text hsource
    have hp := hx.claims path hclaims
    have hnext := hx.extraction hclaims hgraph
    have hrow := hw.rewrites (.readable text) _ (.inl hp) hnext (fun h => by cases h) fun g hg => hg
    refine .inr ⟨graph, hrow, Or.inr ⟨text, rfl, hp, hnext, ?_⟩⟩
    rw [update_self]
    rfl

/-- A changed file leaves core's rows as told, and those of other files alone. -/
theorem fileChanged (path : String) (reextract : Bool) (disk : DiskFile) (loaded : Option Project) :
    Current ids x (w.step ids.toContainerIds x (.fileChanged path reextract disk loaded)) ∧ ∀ p, p ≠ path → p ≠ "" →
        w.store.SameFile (w.step ids.toContainerIds x (.fileChanged path reextract disk loaded)).store p := by
  have hanswer := PluginSession.fileChanged_answered x w.session path reextract disk.source loaded
  have hcases := hw.answered hx rfl hanswer
  unfold step
  dsimp only
  generalize w.session.fileChanged x path reextract disk.source loaded = answer at hanswer hcases
  obtain ⟨session, d⟩ := answer
  generalize hstore : w.store.takeFileChange ids.toContainerIds path disk d = store at hcases ⊢
  have hsame : ∀ p, p ≠ path → p ≠ "" → w.store.SameFile store p := by
    rcases hcases with ⟨rfl, _⟩ | ⟨_, hrow, _⟩
    · exact fun p _ _ => .refl w.store p
    · exact hrow.same
  refine ⟨⟨?_, ?_, ?_, ?_⟩, hsame⟩
  · rcases hcases with ⟨rfl, _⟩ | ⟨_, hrow, _⟩
    · exact hw.owned
    · exact hrow.owned
  · intro p e he
    rcases hanswer.file he with hold | ⟨rfl, hclaims, text, hgraph⟩
    · exact hw.entry p e hold
    · exact ⟨hclaims, hx.extraction hclaims hgraph⟩
  · intro p e he hreported
    dsimp only at he ⊢
    by_cases hp : p = path
    · subst hp
      rw [update_self, he]
      exact retell_reported hreported _ _
    · rw [update_of_ne hp]
      rcases hanswer.file he with hold | ⟨hpath, _⟩
      · exact hw.reported p e hold hreported
      · exact absurd hpath hp
  · intro p text g htold
    dsimp only at htold ⊢
    by_cases hp : p = path
    · subst hp
      rw [update_self] at htold
      rcases hcases with ⟨rfl, _, hkept | hnone⟩ | ⟨next, hrow, ⟨_, hnone⟩ | ⟨_, _, hfile, howned, hnew⟩⟩
      · exact hw.told p text g (hkept ▸ htold)
      · rw [hnone] at htold
        cases htold
      · rw [hnone] at htold
        cases htold
      · rw [hnew] at htold
        cases htold
        exact ⟨hfile, howned, (hrow.holds hfile).self⟩
    · rw [update_of_ne hp] at htold
      obtain ⟨hfile, howned, hholds⟩ := hw.told p text g htold
      exact ⟨hfile, howned, hholds.congr (hsame p hp hfile)⟩

end Current

theorem Current.step (hw : w.Current ids x) (hx : Extracts ids x) (event : SessionEvent Project) :
    Current ids x (w.step ids.toContainerIds x event) := by
  cases event with
  | fileChanged path reextract disk loaded => exact (hw.fileChanged hx path reextract disk loaded).1
  | filesCreated files => exact hw.hydrated hx (.of_files (PluginSession.filesCreated_files w.session files))
  | semanticPass configured files walk =>
    exact hw.hydrated hx (PluginSession.semanticPass_hydrates x w.session configured files walk _ _)
  | workspaceChanged loaded => exact hw.of_files fun path e he => by cases he
  | resolutionChanged loaded unknown =>
    refine hw.of_files fun path e he => ?_
    unfold PluginSession.resolutionChanged at he
    split at he
    · cases he
    · split at he
      · cases he
      · exact .inl he

theorem Current.run {s : Store} (hs : s.FileOwned ids) (hx : Extracts ids x) (events : List (SessionEvent Project)) :
    Current ids x (SessionWorld.run ids.toContainerIds x { store := s } events) := by
  induction events with
  | nil => exact .start hs
  | cons event _ ih => exact ih.step hx event

variable (hw : w.Current ids x)

include hw

theorem Current.told_of_isReported {path text : String} (h : w.session.isReported path text) :
    ∃ graph, w.told path = some (text, graph) := by
  unfold PluginSession.isReported at h
  cases hfile : w.session.files path with
  | none => simp [hfile] at h
  | some e =>
    simp only [hfile, Option.any_some, Bool.and_eq_true, beq_iff_eq] at h
    obtain ⟨hreported, rfl⟩ := h
    exact ⟨e.graph, hw.reported path e hfile hreported⟩

theorem Current.read (hx : Extracts ids x) {path : String} (hclaims : x.claims path) (reextract : Bool)
    (text : String) (loaded : Option Project) :
    let w' := w.step ids.toContainerIds x (.fileChanged path reextract (.readable text) loaded)
    (w'.store = w.store ∧ w'.told path = w.told path ∧ ((reextract = false ∧ w.session.isReported path text) ∨
        w.session.extraction x path text loaded = none)) ∨
    ∃ g, w.session.extraction x path text loaded = some g ∧ w.store.Holds w'.store path g ∧
      w'.told path = some (text, g) := by
  have hanswer := PluginSession.fileChanged_answered x w.session path reextract (some text) loaded
  have hempty : w.store.takeFileChange ids.toContainerIds path (.readable text) {} = w.store :=
    takeFileChange_empty _ _ _ (by simp)
  have hp := hx.claims path hclaims
  intro w'
  unfold w' SessionWorld.step
  dsimp only [DiskFile.source]
  rw [Function.update_self]
  generalize w.session.fileChanged x path reextract (some text) loaded = answer at hanswer ⊢
  obtain ⟨session, d⟩ := answer
  generalize session.files = files at hanswer ⊢
  generalize hs : some text = source at hanswer
  cases hanswer with
  | unclaimed _ hnot => simp [hclaims] at hnot
  | unread => cases hs
  | unchanged _ _ hre hreported =>
    cases hs
    exact .inl ⟨hempty, hw.retell_unchanged path text, Or.inl ⟨hre, hreported⟩⟩
  | failed _ _ hfail =>
    cases hs
    exact .inl ⟨hempty, hw.retell_unchanged path text, Or.inr hfail⟩
  | extracted _ _ graph hgraph =>
    cases hs
    have hrow := hw.rewrites (.readable text) _ (.inl hp) (hx.extraction hclaims hgraph) (fun h => by cases h)
      fun g hg => hg
    rw [Function.update_self]
    exact .inr ⟨graph, hgraph, hrow.holds hp, retell_reported rfl _ _⟩

theorem Current.gone (hx : Extracts ids x) {path : String} (hp : path ≠ "") (reextract : Bool)
    (loaded : Option Project) : let w' := w.step ids.toContainerIds x (.fileChanged path reextract .gone loaded)
    (∀ r, ¬ w'.store.NodeOf path r) ∧ ∀ r, ¬ w'.store.EdgeOf path r := by
  intro w'
  have hanswer := PluginSession.fileChanged_answered x w.session path reextract none loaded
  have hholds : w.store.Holds w'.store path {} := by
    have hsource : DiskFile.gone.source = none := rfl
    rcases hw.answered hx hsource hanswer with ⟨_, hnot, _⟩ | ⟨next, hrow, ⟨rfl, _⟩ | ⟨_, hdisk, _⟩⟩
    · exact absurd rfl hnot
    · exact hrow.holds hp
    · cases hdisk
  constructor
  · intro r hr
    obtain ⟨n, hn, _⟩ := (hholds.nodes r).mp hr
    cases hn
  · intro r hr
    obtain ⟨e, he, _⟩ := hholds.edges r hr
    cases he

end SessionWorld

def SessionEvent.path {Project : Type} : SessionEvent Project → Option String
  | .fileChanged path _ _ _ => some path
  | _ => none

open SessionWorld in
/-- In every run of a session a file that core is told of has the rows of its extraction, one that it is not told of
keeps those of the last report, one that is gone has none, and no event changes another file's rows. An edge extracted
without a specifier may keep the stored one. -/
theorem session_keeps_rows {Project : Type} (ids : IndexIds) (x : PluginExtractor Project) (hx : Extracts ids x)
    (s : Store) (hs : s.FileOwned ids) (events : List (SessionEvent Project)) :
    let w := SessionWorld.run ids.toContainerIds x { store := s } events
    (∀ path reextract text loaded, x.claims path = true →
      let w' := w.step ids.toContainerIds x (.fileChanged path reextract (.readable text) loaded)
      (∀ g, w.session.extraction x path text loaded = some g →
        (reextract = true ∨ ∀ told, w.told path = some told → told.1 ≠ text) →
          w.store.Holds w'.store path g ∧ w'.told path = some (text, g)) ∧
      (∀ g, w.told path = some (text, g) → reextract = false →
        ∃ g', w'.told path = some (text, g') ∧ w.store.Holds w'.store path g' ∧
          (g' = g ∨ w.session.extraction x path text loaded = some g'))) ∧
    (∀ path reextract loaded, path ≠ "" →
      let w' := w.step ids.toContainerIds x (.fileChanged path reextract .gone loaded)
      (∀ r, ¬ w'.store.NodeOf path r) ∧ ∀ r, ¬ w'.store.EdgeOf path r) ∧
    ∀ event path, path ≠ "" → event.path ≠ some path →
      w.store.SameFile (w.step ids.toContainerIds x event).store path := by
  intro w
  have hw : w.Current ids x := .run hs hx events
  refine ⟨fun path reextract text loaded hclaims => ⟨?_, ?_⟩, fun path reextract loaded hp => hw.gone hx hp reextract loaded,
    fun event path hp hother => ?_⟩
  · intro g hgraph hnew
    rcases hw.read hx hclaims reextract text loaded with ⟨_, _, ⟨hre, hreported⟩ | hfail⟩ | ⟨g', hgraph', hrow⟩
    · obtain ⟨graph, htold⟩ := hw.told_of_isReported hreported
      rcases hnew with hset | hdiffers
      · simp [hset] at hre
      · exact absurd rfl (hdiffers _ htold)
    · simp [hgraph] at hfail
    · rw [hgraph] at hgraph'
      cases hgraph'
      exact hrow
  · intro g htold _
    rcases hw.read hx hclaims reextract text loaded with ⟨hstore, hkept, _⟩ | ⟨g', hgraph, hholds, hnew⟩
    · refine ⟨g, hkept.trans htold, ?_, Or.inl rfl⟩
      rw [hstore]
      exact (hw.told path text g htold).2.2
    · exact ⟨g', hnew, hholds, Or.inr hgraph⟩
  · cases event with
    | fileChanged changed reextract disk loaded =>
      exact (hw.fileChanged hx changed reextract disk loaded).2 path (fun h => hother (congrArg some h.symm)) hp
    | filesCreated | semanticPass | workspaceChanged | resolutionChanged => exact .refl w.store path

/-- A file with one import, spelled in the text `old` only. -/
def spelledOnce (text : String) : FileGraph where
  nodes := [{ id := "a", kind := .file, filePath := "a.ts" },
    { id := "m", kind := .module, filePath := "a.ts", nativeKind := some resolvedModuleNativeKind }]
  edges := [{ id := "i", fromId := "a", toId := "m", kind := .imports,
              specifier := if text = "old" then some "./b" else none }]

def spellingExtractor : PluginExtractor Unit where
  claims path := path == "a.ts"
  withinRoot _ := true
  extract _ _ text := some (spelledOnce text)
  filePresenceChanged _ _ _ := ()
  sourceChanged _ _ _ := ()

theorem spelledOnce_owned (text : String) : (spelledOnce text).Owned twoFileIds "a.ts" := by
  refine ⟨by simp [spelledOnce], by simp [spelledOnce], ?_, ?_, ?_, ?_⟩
  · simp [spelledOnce, twoFileIds]
  · simp [spelledOnce, twoFileIds]
  · simp [spelledOnce]
  · simp only [spelledOnce, List.mem_singleton, forall_eq, true_and]
    exact ⟨by decide, fun k => ne_taggedId (by decide) k.1 k.2⟩

theorem spellingExtractor_extracts : SessionWorld.Extracts twoFileIds spellingExtractor where
  claims path h := by
    simp only [spellingExtractor, beq_iff_eq] at h
    rw [h]
    decide
  extract project path text g hclaims h := by
    simp only [spellingExtractor, beq_iff_eq, Option.some.injEq] at hclaims h
    rw [hclaims, ← h]
    exact spelledOnce_owned text

def oldIndex : Store :=
  (SessionWorld.run taggedIds spellingExtractor { store := {} }
    [.fileChanged "a.ts" false (.readable "old") (some ())]).store

theorem oldIndex_owned : oldIndex.FileOwned twoFileIds := by
  have hempty : ({} : Store).FileOwned twoFileIds := by
    refine ⟨⟨?_, ?_, ?_⟩, ?_⟩ <;> intro r hr <;> cases hr
  exact (SessionWorld.Current.run hempty spellingExtractor_extracts _).owned

theorem session_keeps_rows_spelledOnce :
    oldIndex.Holds (SessionWorld.step taggedIds spellingExtractor { store := oldIndex }
      (.fileChanged "a.ts" false (.readable "new") (some ()))).store "a.ts" (spelledOnce "new") := by
  have hrows := session_keeps_rows twoFileIds spellingExtractor spellingExtractor_extracts oldIndex oldIndex_owned []
  exact ((hrows.1 "a.ts" false "new" (some ()) (by decide)).1 (spelledOnce "new") rfl
    (.inr fun told htold => by cases htold)).1

/-- The extraction has no specifier, and the stored edge keeps that of the earlier process. -/
theorem stored_specifier_outlives_extraction :
    oldIndex.FileOwned twoFileIds ∧ SessionWorld.Extracts twoFileIds spellingExtractor ∧
    PluginSession.extraction spellingExtractor {} "a.ts" "new" (some ()) = some (spelledOnce "new") ∧
    ¬ ∀ r, (SessionWorld.step taggedIds spellingExtractor { store := oldIndex }
      (.fileChanged "a.ts" true (.readable "new") (some ()))).store.EdgeOf "a.ts" r ↔ r ∈ (spelledOnce "new").edges := by
  refine ⟨oldIndex_owned, spellingExtractor_extracts, rfl, fun hall => ?_⟩
  let file : NodeRow := { id := "a", kind := .file, filePath := "a.ts" }
  let kept : EdgeRow := { id := "i", fromId := "a", toId := "m", kind := .imports, specifier := some "./b" }
  have hstored : kept ∈ (SessionWorld.step taggedIds spellingExtractor { store := oldIndex }
      (.fileChanged "a.ts" true (.readable "new") (some ()))).store.edges := by decide +kernel
  have hfile : file ∈ (SessionWorld.step taggedIds spellingExtractor { store := oldIndex }
      (.fileChanged "a.ts" true (.readable "new") (some ()))).store.nodes := by decide +kernel
  have hsent : kept ∈ (spelledOnce "new").edges := (hall kept).mp ⟨hstored, file, ⟨hfile, rfl⟩, rfl⟩
  exact absurd hsent (by decide)

end GMesh
