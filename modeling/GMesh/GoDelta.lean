import GMesh.GoLayout

namespace GMesh

open GoWorkspace List

variable {old new w : GoWorkspace} {dir d k name path spec : WireText} {m : ModuleRoot}

theorem mem_factsOf : m ∈ (factsOf w).modules ↔ m ∈ w.modules := mem_insertionSort _

theorem nodup_factsOf : ((factsOf w).modules.map (·.dir)).Nodup := by
  have hperm : ((factsOf w).modules.map (·.dir)).Perm (w.modules.map (·.dir)) := (perm_insertionSort _ _).map _
  exact hperm.nodup_iff.mpr w.nodup

theorem mem_sortTexts {t : WireText} {ts : List WireText} : t ∈ sortTexts ts ↔ t ∈ ts := mem_insertionSort _

theorem modulesByDir_eq_some_iff : modulesByDir (factsOf w).modules dir = some path ↔ ⟨dir, path⟩ ∈ w.modules := by
  unfold modulesByDir
  rw [Option.map_eq_some_iff]
  simp only [lastWhere_eq_some_iff nodup_factsOf, mem_factsOf]
  constructor
  · rintro ⟨m, ⟨hm, rfl⟩, rfl⟩
    exact hm
  · intro hm
    exact ⟨⟨dir, path⟩, ⟨hm, rfl⟩, rfl⟩

theorem mem_allDirs : dir ∈ allDirs (factsOf old) (factsOf new) ↔ ∃ m ∈ old.modules ++ new.modules, m.dir = dir := by
  unfold allDirs
  simp only [mem_dedup, mem_map, mem_append, mem_factsOf]

theorem mem_changedDirs : dir ∈ changedDirs (factsOf old) (factsOf new) ↔
    modulesByDir (factsOf old).modules dir ≠ modulesByDir (factsOf new).modules dir := by
  unfold changedDirs
  rw [mem_sortTexts, mem_filter, decide_eq_true_iff, mem_allDirs]
  constructor
  · exact And.right
  · intro h
    refine ⟨?_, h⟩
    by_contra hnone
    have habsent : ∀ w : GoWorkspace, (∀ m ∈ w.modules, m ∈ old.modules ++ new.modules) →
        modulesByDir (factsOf w).modules dir = none := by
      intro w hw
      cases hp : modulesByDir (factsOf w).modules dir with
      | none => rfl
      | some path => exact absurd ⟨_, hw _ (modulesByDir_eq_some_iff.mp hp), rfl⟩ hnone
    exact h ((habsent old fun m hm => mem_append_left _ hm).trans (habsent new fun m hm => mem_append_right _ hm).symm)

theorem mem_nestedDirs : d ∈ nestedDirs (factsOf old) (factsOf new) dir ↔
    d ∈ allDirs (factsOf old) (factsOf new) ∧ d ≠ dir ∧ Under dir d := by
  simp [nestedDirs, mem_sortTexts, Under]

theorem mem_changedDirs_of_not_mem (hm : m ∈ old.modules ↔ ¬m ∈ new.modules) :
    m.dir ∈ changedDirs (factsOf old) (factsOf new) := by
  rw [mem_changedDirs]
  intro h
  have hold : modulesByDir (factsOf old).modules m.dir = some m.path ↔ m ∈ old.modules := modulesByDir_eq_some_iff
  have hiff : m ∈ old.modules ↔ m ∈ new.modules := by
    rw [← hold, h, modulesByDir_eq_some_iff]
  exact not_iff_self (hiff.symm.trans hm).symm

theorem exists_changed_of_moved (h : old.importPath dir ≠ new.importPath dir) :
    ∃ m ∈ old.modules ++ new.modules, m.dir ∈ changedDirs (factsOf old) (factsOf new) ∧
      Innermost (old.modules ++ new.modules) (normalizeDir dir) m := by
  by_cases hnone : ∃ m ∈ old.modules ++ new.modules, Under m.dir (normalizeDir dir)
  · obtain ⟨m, hm⟩ := exists_innermost hnone
    refine ⟨m, hm.mem, ?_, hm⟩
    apply mem_changedDirs_of_not_mem
    by_contra hboth
    -- a module of both layouts would own the directory in both
    have hin : m ∈ old.modules ∧ m ∈ new.modules := by
      have hor := mem_append.mp hm.mem
      tauto
    obtain ⟨s, hs⟩ := Option.isSome_iff_exists.mp hm.under
    have hold := hm.of_subset hin.1 fun n hn => mem_append_left _ hn
    have hnew := hm.of_subset hin.2 fun n hn => mem_append_right _ hn
    exact h ((importPath_eq hold hs).trans (importPath_eq hnew hs).symm)
  · refine absurd ?_ h
    have hold : ∀ m ∈ old.modules, ¬Under m.dir (normalizeDir dir) :=
      fun m hm hu => hnone ⟨m, mem_append_left _ hm, hu⟩
    have hnew : ∀ m ∈ new.modules, ¬Under m.dir (normalizeDir dir) :=
      fun m hm hu => hnone ⟨m, mem_append_right _ hm, hu⟩
    rw [importPath_of_none hold, importPath_of_none hnew]

theorem pathIsUnder_iff (hclean : dir.getLast? ≠ some '/') : pathIsUnder path dir ↔ Under dir path := by
  have htrim : dir.rdropWhile (· == '/') = dir := by
    rw [rdropWhile_eq_self_iff]
    intro hne hlast
    apply hclean
    rw [getLast?_eq_some_getLast hne, beq_iff_eq.mp hlast]
  unfold pathIsUnder
  rw [htrim, under_iff]
  simp only [Bool.or_eq_true, List.isEmpty_iff, beq_iff_eq, List.isPrefixOf_iff_prefix, or_assoc]
  refine or_congr Iff.rfl (or_congr Iff.rfl ?_)
  constructor
  · rintro ⟨s, rfl⟩
    exact ⟨s, by simp⟩
  · rintro ⟨s, rfl⟩
    exact ⟨s, by simp⟩

theorem clean_of_mem_allDirs (h : dir ∈ allDirs (factsOf old) (factsOf new)) : dir.getLast? ≠ some '/' := by
  obtain ⟨m, hm, rfl⟩ := mem_allDirs.mp h
  rcases mem_append.mp hm with hm | hm
  · exact old.clean m hm
  · exact new.clean m hm

def fileIn (dir name : WireText) : WireText := if dir = [] then name else dir ++ '/' :: name

theorem Under.fileIn (h : Under k d) (name : WireText) : Under k (fileIn d name) := by
  unfold GMesh.fileIn
  split
  next hd =>
    subst hd
    exact under_iff.mpr (.inl (prefix_nil.mp h.isPrefix))
  next => exact h.trans (under_iff.mpr (.inr (.inr ⟨name, rfl⟩)))

theorem under_of_under_fileIn (hname : '/' ∉ name) (h : Under k (fileIn d name)) : k = fileIn d name ∨ Under k d := by
  rcases under_iff.mp h with rfl | hk | ⟨s, hs⟩
  · exact .inr (under_iff.mpr (.inl rfl))
  · exact .inl hk.symm
  · unfold fileIn at hs
    split at hs
    next =>
      rw [hs] at hname
      simp at hname
    next =>
      right
      rcases append_eq_append_iff.mp hs with ⟨a, rfl, ha⟩ | ⟨a, rfl, ha⟩
      · cases a with
        | nil => simpa using under_refl d
        | cons c a =>
          have hmem : '/' ∈ name := by simp [(List.cons.inj ha).2]
          exact absurd hmem hname
      · cases a with
        | nil => simpa using under_refl k
        | cons c a =>
          have hc : '/' = c := (List.cons.inj ha).1
          exact under_iff.mpr (.inr (.inr ⟨a, by rw [hc]⟩))

theorem contains_scope_iff (hk : k ∈ allDirs (factsOf old) (factsOf new)) :
    PathScope.contains { under := k, notUnder := nestedDirs (factsOf old) (factsOf new) k } path ↔
      Under k path ∧ ∀ other ∈ allDirs (factsOf old) (factsOf new), other ≠ k → Under k other → ¬Under other path := by
  unfold PathScope.contains
  rw [Bool.and_eq_true, pathIsUnder_iff (clean_of_mem_allDirs hk), Bool.not_eq_true', any_eq_false]
  apply and_congr Iff.rfl
  simp only [mem_nestedDirs, and_imp]
  refine forall_congr' fun other => forall_congr' fun hother => ?_
  rw [pathIsUnder_iff (clean_of_mem_allDirs hother)]

/-- A file of a directory whose import path moved is in a scope of the delta. -/
theorem exists_scope_of_moved (h : old.importPath dir ≠ new.importPath dir) (hname : '/' ∉ name)
    (hfile : ∀ m ∈ old.modules, ∀ n ∈ new.modules, m.dir = n.dir → m.dir ≠ fileIn (normalizeDir dir) name) :
    ∃ k ∈ changedDirs (factsOf old) (factsOf new),
      PathScope.contains { under := k, notUnder := nestedDirs (factsOf old) (factsOf new) k }
        (fileIn (normalizeDir dir) name) := by
  by_cases hdir : fileIn (normalizeDir dir) name ∈ allDirs (factsOf old) (factsOf new)
  · refine ⟨_, ?_, (contains_scope_iff hdir).mpr ⟨under_refl _, ?_⟩⟩
    · obtain ⟨m, hm, hpath⟩ := mem_allDirs.mp hdir
      rw [← hpath]
      apply mem_changedDirs_of_not_mem
      have hor := mem_append.mp hm
      tauto
    · intro other _ hne hunder hback
      have hle := hunder.isPrefix.length_le
      exact hne (hback.isPrefix.eq_of_length_le hle)
  · obtain ⟨m, hm, hchanged, hin⟩ := exists_changed_of_moved h
    refine ⟨m.dir, hchanged, (contains_scope_iff (mem_allDirs.mpr ⟨m, hm, rfl⟩)).mpr ⟨hin.under.fileIn name, ?_⟩⟩
    intro other hother hne hunder hfound
    rcases under_of_under_fileIn hname hfound with rfl | hfound
    · exact hdir hother
    · obtain ⟨n, hn, rfl⟩ := mem_allDirs.mp hother
      have hlonger := byteLength_lt_of_isPrefix hunder.isPrefix (Ne.symm hne)
      have hlongest := hin.longest n hn hfound
      omega

def ImportSelector.Selects (s : ImportSelector) (spec : WireText) : Prop :=
  ∀ importer target, StoredImport.meets ⟨importer, some spec, target⟩ s = true

theorem specifierUnder_selects (h : (Matcher.under path ['/']).accepts spec) : (specifierUnder path).Selects spec := by
  intro importer target
  have hall : PathScope.contains {} importer := by simp [PathScope.contains, pathIsUnder]
  simp [StoredImport.meets, specifierUnder, h, hall]

/-- A specifier that came to be or ceased to be the project's is under a moved prefix. -/
theorem exists_prefix_of_project (h : old.isProjectImportPath spec ≠ new.isProjectImportPath spec) :
    ∃ path ∈ movedPrefixes (factsOf old) (factsOf new), (Matcher.under path ['/']).accepts spec := by
  have hown : ∀ {w : GoWorkspace} {m : ModuleRoot}, m ∈ w.modules →
      importPathIn (factsOf w).modules m.dir = some m.path := by
    intro w m hm
    have hin : Innermost (factsOf w).modules m.dir m :=
      ⟨mem_factsOf.mpr hm, under_refl _, fun n _ hn => by
        by_cases hne : n.dir = m.dir
        · rw [hne]
        · exact (byteLength_lt_of_isPrefix hn.isPrefix hne).le⟩
    have hself : underDir m.dir m.dir = some [] := by
      by_cases hroot : m.dir = []
      · simp [underDir, hroot]
      · simp [underDir, hroot]
    simpa [underModule] using importPathIn_eq nodup_factsOf hin hself
  have hmoved : ∀ m : ModuleRoot, (m ∈ old.modules ↔ ¬m ∈ new.modules) →
      m.path ∈ movedPrefixes (factsOf old) (factsOf new) := by
    intro m hm
    refine mem_flatMap.mpr ⟨m.dir, mem_changedDirs_of_not_mem hm, ?_⟩
    by_cases ho : m ∈ old.modules
    · simp [hown ho]
    · have hn : m ∈ new.modules := by tauto
      simp [hown hn]
  have hsome : ∃ m : ModuleRoot, (m ∈ old.modules ↔ ¬m ∈ new.modules) ∧ (Matcher.under m.path ['/']).accepts spec := by
    by_contra hnone
    apply h
    rw [Bool.eq_iff_iff, isProjectImportPath_iff, isProjectImportPath_iff]
    refine exists_congr fun m => and_congr_left fun hm => ?_
    have hsame : ¬(m ∈ old.modules ↔ ¬m ∈ new.modules) := fun hm' => hnone ⟨m, hm', hm⟩
    tauto
  obtain ⟨m, hm, hspec⟩ := hsome
  exact ⟨m.path, hmoved m hm, hspec⟩

theorem exists_prefix_of_moved (h : old.importPath dir ≠ new.importPath dir) (hw : w = old ∨ w = new)
    (hin : ∃ m ∈ w.modules, Under m.dir (normalizeDir dir)) :
    ∃ path ∈ movedPrefixes (factsOf old) (factsOf new), (Matcher.under path ['/']).accepts (w.importPath dir) := by
  obtain ⟨k, -, hchanged, hk⟩ := exists_changed_of_moved h
  obtain ⟨m, hm⟩ := exists_innermost hin
  have hsub : ∀ n ∈ w.modules, n ∈ old.modules ++ new.modules := by
    intro n hn
    rcases hw with rfl | rfl
    · exact mem_append_left _ hn
    · exact mem_append_right _ hn
  have hmk : Under m.dir k.dir := hm.under.of_byteLength_le hk.under (hk.longest m (hsub m hm.mem) hm.under)
  -- the module that owns the directory owns the changed directory above it too
  have howns : Innermost (factsOf w).modules k.dir m :=
    ⟨mem_factsOf.mpr hm.mem, hmk, fun n hn hu => hm.longest n (mem_factsOf.mp hn) (hu.trans hk.under)⟩
  obtain ⟨s, hs⟩ := Option.isSome_iff_exists.mp hmk
  obtain ⟨u, hu⟩ := Option.isSome_iff_exists.mp hm.under
  refine ⟨underModule m.path s, mem_flatMap.mpr ⟨k.dir, hchanged, ?_⟩, ?_⟩
  · have hkey := importPathIn_eq nodup_factsOf howns hs
    rcases hw with rfl | rfl
    · simp [hkey]
    · simp [hkey]
  · rw [importPath_eq hm hu]
    exact accepts_underModule_of_under hs hu hk.under

theorem factsDelta_eq_unchanged (h : factsDelta (factsOf old) (factsOf new) = .unchanged) :
    changedDirs (factsOf old) (factsOf new) = [] := by
  unfold factsDelta at h
  dsimp only at h
  split at h
  next => simp at h
  next =>
    split at h
    next hempty => simpa using hempty.1
    next => simp at h

theorem factsDelta_eq_affected {files : List PathScope} {imports : List ImportSelector}
    (h : factsDelta (factsOf old) (factsOf new) = .affected files imports) :
    (∀ k ∈ changedDirs (factsOf old) (factsOf new),
      { under := k, notUnder := nestedDirs (factsOf old) (factsOf new) k } ∈ files) ∧
      ∀ path ∈ movedPrefixes (factsOf old) (factsOf new), specifierUnder path ∈ imports := by
  unfold factsDelta at h
  dsimp only at h
  split at h
  next => simp at h
  next =>
    split at h
    next => simp at h
    next =>
      obtain ⟨rfl, rfl⟩ := ResolutionDelta.affected.inj h
      refine ⟨fun k hk => mem_map.mpr ⟨k, hk, rfl⟩, fun path hpath => mem_map.mpr ⟨path, ?_, rfl⟩⟩
      rw [mem_sortTexts, mem_dedup]
      simp [hpath]

/-- A layout change reported as none moves nothing. One reported with a selection selects every file whose directory
moves and the importers of every specifier that becomes or stops being the project's, or names a moved directory. -/
theorem factsDelta_selects_moved (old new : GoWorkspace) :
    (factsDelta (factsOf old) (factsOf new) = .unchanged →
      (∀ dir, old.importPath dir = new.importPath dir) ∧
        ∀ spec, old.isProjectImportPath spec = new.isProjectImportPath spec) ∧
    ∀ files imports, factsDelta (factsOf old) (factsOf new) = .affected files imports →
      (∀ dir name, '/' ∉ name →
        (∀ m ∈ old.modules, ∀ n ∈ new.modules, m.dir = n.dir → m.dir ≠ fileIn (normalizeDir dir) name) →
        old.importPath dir ≠ new.importPath dir →
        ∃ scope ∈ files, scope.contains (fileIn (normalizeDir dir) name) = true) ∧
      (∀ spec, old.isProjectImportPath spec ≠ new.isProjectImportPath spec →
        ∃ selector ∈ imports, selector.Selects spec) ∧
      ∀ dir w, old.importPath dir ≠ new.importPath dir → w = old ∨ w = new →
        (∃ m ∈ w.modules, Under m.dir (normalizeDir dir)) →
        ∃ selector ∈ imports, selector.Selects (w.importPath dir) := by
  constructor
  · intro h
    have hnone := factsDelta_eq_unchanged h
    constructor
    · intro dir
      by_contra hmoved
      obtain ⟨m, -, hm, -⟩ := exists_changed_of_moved hmoved
      simp [hnone] at hm
    · intro spec
      by_contra hmoved
      obtain ⟨path, hpath, -⟩ := exists_prefix_of_project hmoved
      simp [movedPrefixes, hnone] at hpath
  · intro files imports h
    obtain ⟨hfiles, himports⟩ := factsDelta_eq_affected h
    refine ⟨?_, ?_, ?_⟩
    · intro dir name hname hfile hmoved
      obtain ⟨k, hk, hcontains⟩ := exists_scope_of_moved hmoved hname hfile
      exact ⟨_, hfiles k hk, hcontains⟩
    · intro spec hmoved
      obtain ⟨path, hpath, haccepts⟩ := exists_prefix_of_project hmoved
      exact ⟨_, himports path hpath, specifierUnder_selects haccepts⟩
    · intro dir w hmoved hw hin
      obtain ⟨path, hpath, haccepts⟩ := exists_prefix_of_moved hmoved hw hin
      exact ⟨_, himports path hpath, specifierUnder_selects haccepts⟩

section RenamedTools

def toolsDir : WireText := ['t', 'o', 'o', 'l', 's']

def appAndTools (toolsPath : WireText) : GoWorkspace where
  modules := [⟨toolsDir, toolsPath⟩, ⟨[], ['a', 'p', 'p']⟩]
  nodup := by simp [toolsDir]
  longestFirst := by simp [byteLength]
  clean := by simp [toolsDir]

end RenamedTools

theorem factsDelta_selects_moved_renamedTools :
    ∃ files imports, factsDelta (factsOf (appAndTools ['x', '/', 't'])) (factsOf (appAndTools ['x', '/', 'u'])) =
        .affected files imports ∧
      (∃ scope ∈ files, scope.contains (fileIn toolsDir ['m', '.', 'g', 'o']) = true) ∧
      (∃ selector ∈ imports, selector.Selects ['x', '/', 't', '/', 'g']) ∧
      ∃ selector ∈ imports, selector.Selects ((appAndTools ['x', '/', 'u']).importPath toolsDir) := by
  have hdelta : factsDelta (factsOf (appAndTools ['x', '/', 't'])) (factsOf (appAndTools ['x', '/', 'u'])) =
      .affected [{ under := toolsDir }] [specifierUnder ['x', '/', 't'], specifierUnder ['x', '/', 'u']] := by
    decide +kernel
  have hmoved : (appAndTools ['x', '/', 't']).importPath toolsDir ≠
      (appAndTools ['x', '/', 'u']).importPath toolsDir := by
    decide +kernel
  have hspec : (appAndTools ['x', '/', 't']).isProjectImportPath ['x', '/', 't', '/', 'g'] ≠
      (appAndTools ['x', '/', 'u']).isProjectImportPath ['x', '/', 't', '/', 'g'] := by
    decide +kernel
  have hfile : ∀ m ∈ (appAndTools ['x', '/', 't']).modules, ∀ n ∈ (appAndTools ['x', '/', 'u']).modules,
      m.dir = n.dir → m.dir ≠ fileIn (normalizeDir toolsDir) ['m', '.', 'g', 'o'] := by
    decide +kernel
  have howned : ∃ m ∈ (appAndTools ['x', '/', 'u']).modules, Under m.dir (normalizeDir toolsDir) :=
    ⟨⟨toolsDir, ['x', '/', 'u']⟩, by decide +kernel, under_refl _⟩
  obtain ⟨hfiles, hspecs, hpaths⟩ := (factsDelta_selects_moved _ _).2 _ _ hdelta
  exact ⟨_, _, hdelta, hfiles toolsDir _ (by decide) hfile hmoved, hspecs _ hspec,
    hpaths toolsDir _ hmoved (.inr rfl) howned⟩

end GMesh
