import GMesh.PythonProject
import Mathlib.Data.List.Induction

namespace GMesh

open List

variable {path root rel head tail : WireText}

theorem dotted_append {us vs : List WireText} (hu : us ≠ []) (hv : vs ≠ []) :
    dotted (us ++ vs) = dotted us ++ '.' :: dotted vs := by
  unfold dotted
  rw [intercalate_append ['.'] hu hv, append_assoc, singleton_append]

theorem dotted_singleton (u : WireText) : dotted [u] = u := by simp [dotted]

theorem mem_prefixesFrom_parent {segments : List WireText} (hs : ∀ s ∈ segments, '.' ∉ s) {built : WireText}
    (htail : '.' ∉ tail) (h : head ++ '.' :: tail ∈ prefixesFrom built segments) :
    head ∈ prefixesFrom built segments ∨ (built ≠ [] ∧ head = built) := by
  induction segments generalizing built with
  | nil => simp [prefixesFrom] at h
  | cons s _ ih =>
    rw [prefixesFrom] at h ⊢
    have hsdot : '.' ∉ s := hs s (mem_cons_self ..)
    rcases mem_cons.mp h with h | h
    · by_cases hbuilt : built = []
      · rw [if_pos (by simp [hbuilt]), nil_append] at h
        rw [← h] at hsdot
        simp at hsdot
      · rw [if_neg (by simp [hbuilt]), append_assoc, singleton_append] at h
        have hsplit := congrArg (rsplitOnce '.') h
        rw [rsplitOnce_append htail, rsplitOnce_append hsdot] at hsplit
        cases hsplit
        exact .inr ⟨hbuilt, rfl⟩
    · rcases ih (fun t ht => hs t (mem_cons_of_mem s ht)) h with h | ⟨_, h⟩
      · exact .inl (mem_cons_of_mem _ h)
      · exact .inl (h ▸ mem_cons_self ..)

namespace PyProject

variable {p q : PyProject}

theorem hasContainer_iff {key : WireText} :
    p.hasContainer key ↔ ∃ path ∈ p.files, key ∈ keyPrefixes (p.containerFor path) := by
  unfold hasContainer containers
  rw [contains_iff_mem, mem_dedup, mem_flatMap]

theorem hasContainer_parent (htail : '.' ∉ tail) (h : p.hasContainer (head ++ '.' :: tail)) : p.hasContainer head := by
  obtain ⟨path, hpath, hkey⟩ := hasContainer_iff.mp h
  refine hasContainer_iff.mpr ⟨path, hpath, ?_⟩
  cases hinfo : p.containerFor path with
  | orphan key => simp [hinfo, keyPrefixes] at hkey
  | module | package | stub =>
    rw [hinfo] at hkey
    rcases mem_prefixesFrom_parent not_mem_of_mem_splitOn htail hkey with h | ⟨hne, _⟩
    · exact h
    · exact absurd rfl hne

theorem hasContainer_top (d : DottedName) (h : p.hasContainer d.text) : p.hasContainer d.top.1 := by
  obtain ⟨top, rest⟩ := d
  unfold DottedName.text at h
  induction rest using List.reverseRecOn with
  | nil => simpa [dotted_singleton] using h
  | append_singleton _ last ih =>
    rw [← cons_append, map_append, dotted_append (by simp) (by simp), map_singleton,
      dotted_singleton] at h
    exact ih (hasContainer_parent last.2 h)

end PyProject

def IsRest (path rel : WireText) : Prop := rel = path ∨ ∃ dir, path = dir ++ '/' :: rel

theorem relativeTo_isRest (h : isUnder root path) : IsRest path (relativeTo root path) := by
  unfold relativeTo
  by_cases hroot : root = []
  · exact .inl (by simp [hroot])
  · simp only [isUnder, Bool.or_eq_true, List.isEmpty_iff, hroot, false_or, List.isPrefixOf_iff_prefix] at h
    obtain ⟨rest, rfl⟩ := h
    refine .inr ⟨root, ?_⟩
    simp [hroot]

theorem IsRest.length_le (h : IsRest path rel) : rel.length ≤ path.length := by
  rcases h with rfl | ⟨dir, rfl⟩
  · omega
  · simp only [length_append, length_cons]
    omega

theorem IsRest.suffix (h : IsRest path rel) : rel <:+ path := by
  rcases h with rfl | ⟨dir, rfl⟩
  · exact suffix_refl rel
  · exact ⟨dir ++ ['/'], by simp⟩

theorem IsRest.below {rel' : WireText} (h : IsRest path rel) (h' : IsRest path rel') (hlt : rel'.length < rel.length) :
    ∃ dir, rel = dir ++ '/' :: rel' := by
  rcases h' with rfl | ⟨dir', rfl⟩
  · have hle := h.length_le
    omega
  · obtain ⟨front, hfront⟩ := h.suffix
    obtain ⟨middle, hmiddle⟩ := suffix_of_suffix_length_le (⟨dir' ++ ['/'], by simp⟩ : rel' <:+ dir' ++ '/' :: rel')
      h.suffix (Nat.le_of_lt hlt)
    have hends : front ++ middle = dir' ++ ['/'] := by
      rw [← hmiddle, ← append_assoc] at hfront
      exact append_cancel_right (hfront.trans (by simp))
    have hne : middle ≠ [] := by
      rintro rfl
      rw [nil_append] at hmiddle
      rw [hmiddle] at hlt
      omega
    refine ⟨middle.dropLast, ?_⟩
    have hlast : middle.getLast hne = '/' := by
      have hl := congrArg List.getLast? hends
      rw [getLast?_append_of_ne_nil _ hne] at hl
      simpa [getLast?_eq_getLast_of_ne_nil hne] using hl
    rw [← hmiddle, ← dropLast_append_getLast hne, hlast]
    simp

theorem length_dotted (segments : List WireText) : (dotted segments).length = (['/'].intercalate segments).length := by
  induction segments with
  | nil => rfl
  | cons _ segments ih =>
    cases segments with
    | nil => simp [dotted]
    | cons t segments =>
      unfold dotted at ih ⊢
      simp only [intercalate_cons_cons, length_append, ih]
      rfl

theorem length_fileStem_le (name : WireText) : (fileStem name).length ≤ name.length := by
  have hstrip : ∀ ending stem : WireText, name.dropSuffix? ending = some stem → stem.length ≤ name.length := by
    intro ending stem h
    obtain ⟨ending', hname, _⟩ := dropSuffix?_eq_some_iff.mp h
    rw [hname, length_append]
    omega
  unfold fileStem
  cases h : name.dropSuffix? ".py".toList with
  | some stem => exact hstrip _ stem h
  | none =>
    cases h' : name.dropSuffix? ".pyi".toList with
    | some stem => exact hstrip _ stem h'
    | none => simp

def infoOf (path rel : WireText) : ContainerInfo :=
  containerOf path (rel.splitOn '/').dropLast (fileStem ((rel.splitOn '/').getLast?.getD []))

theorem length_lt_orphanKey (path : WireText) : path.length < (orphanKey path).length := by
  unfold orphanKey
  rw [length_append]
  exact Nat.lt_add_of_pos_left (by decide)

theorem containerOf_init (path : WireText) {dirs : List WireText} (hd : dirs ≠ []) :
    (containerOf path dirs "__init__".toList).key = dotted dirs := by
  unfold containerOf
  rw [if_pos rfl, getLast?_eq_getLast_of_ne_nil hd]
  rfl

theorem containerOf_rootInit (path : WireText) : containerOf path [] "__init__".toList = .orphan (orphanKey path) := by
  unfold containerOf
  rfl

theorem containerOf_module (path : WireText) (dirs : List WireText) {stem : WireText} (hs : stem ≠ "__init__".toList) :
    (containerOf path dirs stem).key = dotted (dirs ++ [stem]) := by
  unfold containerOf
  rw [if_neg hs]
  rfl

theorem infoOf_key_ne {rel' : WireText} (h : IsRest path rel) (h' : IsRest path rel') (hlt : rel'.length < rel.length) :
    (infoOf path rel).key ≠ (infoOf path rel').key := by
  obtain ⟨dir, rfl⟩ := h.below h' hlt
  have hle := h.length_le
  unfold infoOf
  have hlen : (dotted (dir.splitOn '/')).length = dir.length := by
    rw [length_dotted, intercalate_splitOn]
  rw [splitOn_append_cons_self, dropLast_append_of_ne_nil (splitOn_ne_nil '/' rel'),
    getLast?_append_of_ne_nil _ (splitOn_ne_nil '/' rel')]
  generalize fileStem ((rel'.splitOn '/').getLast?.getD []) = stem
  generalize (rel'.splitOn '/').dropLast = dirs
  have hne := splitOn_ne_nil '/' dir
  have hgap : ∀ a b : Nat, a + (b + 1) ≠ b := fun a b => by omega
  intro hkeys
  have hlens := congrArg List.length hkeys
  by_cases hs : stem = "__init__".toList
  · subst hs
    rw [containerOf_init path (by simp [hne])] at hlens
    by_cases hd : dirs = []
    · subst hd
      rw [containerOf_rootInit, append_nil, hlen] at hlens
      have hlong : path.length < dir.length := hlens ▸ length_lt_orphanKey path
      rw [length_append] at hle
      omega
    · rw [containerOf_init path hd, dotted_append hne hd, length_append, length_cons] at hlens
      exact hgap _ _ hlens
  · rw [containerOf_module path _ hs, containerOf_module path _ hs, append_assoc,
      dotted_append hne (by simp), length_append, length_cons] at hlens
    exact hgap _ _ hlens

theorem infoOf_orphan_or_short (h : IsRest path rel) :
    infoOf path rel = .orphan (orphanKey path) ∨ (infoOf path rel).key.length < (orphanKey path).length := by
  have hle := h.length_le
  have hlong := length_lt_orphanKey path
  have hrel : (dotted (rel.splitOn '/')).length = rel.length := by rw [length_dotted, intercalate_splitOn]
  have hparts := dropLast_append_getLast (splitOn_ne_nil '/' rel)
  unfold infoOf
  rw [getLast?_eq_getLast_of_ne_nil (splitOn_ne_nil '/' rel), Option.getD_some]
  generalize (rel.splitOn '/').getLast _ = name at hparts ⊢
  generalize (rel.splitOn '/').dropLast = dirs at hparts ⊢
  rw [← hparts] at hrel
  by_cases hs : fileStem name = "__init__".toList
  · rw [hs]
    by_cases hd : dirs = []
    · exact .inl (hd ▸ containerOf_rootInit path)
    · right
      rw [containerOf_init path hd]
      rw [dotted_append hd (by simp), length_append] at hrel
      omega
  · right
    rw [containerOf_module path dirs hs]
    have hstem : (dotted (dirs ++ [fileStem name])).length ≤ (dotted (dirs ++ [name])).length := by
      have hshort := length_fileStem_le name
      by_cases hd : dirs = []
      · simpa [hd, dotted_singleton] using hshort
      · rw [dotted_append hd (by simp), dotted_append hd (by simp), dotted_singleton, dotted_singleton]
        simp only [length_append, length_cons]
        omega
    omega

theorem ContainerInfo.stubbed_key (info : ContainerInfo) : info.stubbed.key = info.key := by
  cases info <;> rfl

theorem PyProject.containerFor_cases (p : PyProject) (path : WireText) :
    p.containerFor path = .orphan (orphanKey path) ∨ ∃ rel, IsRest path rel ∧ p.containerFor path =
        if fileExtension path = some ".pyi".toList then (infoOf path rel).stubbed else infoOf path rel := by
  unfold containerFor
  cases hroot : owningRoot p.roots path with
  | none => exact .inl rfl
  | some root =>
    have hunder : isUnder root path := by
      simpa using find?_some hroot
    exact .inr ⟨relativeTo root path, relativeTo_isRest hunder, rfl⟩

theorem PyProject.containerFor_eq_of_key {p q : PyProject}
    (h : (p.containerFor path).key = (q.containerFor path).key) : p.containerFor path = q.containerFor path := by
  have hkey : ∀ rel, (if fileExtension path = some ".pyi".toList then (infoOf path rel).stubbed
      else infoOf path rel).key = (infoOf path rel).key := by
    intro rel
    split
    · exact ContainerInfo.stubbed_key _
    · rfl
  have horphan : ∀ rel, IsRest path rel → (infoOf path rel).key = orphanKey path →
      (if fileExtension path = some ".pyi".toList then (infoOf path rel).stubbed else infoOf path rel) =
        .orphan (orphanKey path) := by
    intro rel hrel hk
    rcases infoOf_orphan_or_short hrel with heq | hlt
    · rw [heq]
      split <;> rfl
    · rw [hk] at hlt
      omega
  rcases p.containerFor_cases path with hp | ⟨rel, hrel, hp⟩ <;>
    rcases q.containerFor_cases path with hq | ⟨rel', hrel', hq⟩
  · rw [hp, hq]
  · rw [hp, hq, hkey] at h
    rw [hp, hq, horphan rel' hrel' h.symm]
  · rw [hp, hq, hkey] at h
    rw [hp, hq, horphan rel hrel h]
  · rw [hp, hq, hkey, hkey] at h
    rcases Nat.lt_trichotomy rel.length rel'.length with hlt | heq | hlt
    · exact absurd h.symm (infoOf_key_ne hrel' hrel hlt)
    · have hsame : rel = rel' := (suffix_of_suffix_length_le hrel.suffix hrel'.suffix (Nat.le_of_eq heq)).eq_of_length heq
      rw [hp, hq, hsame]
    · exact absurd h (infoOf_key_ne hrel hrel' hlt)

variable {path : WireText}

namespace ContainerFacts

variable {old new : ContainerFacts} {key : WireText}

theorem mem_added : key ∈ old.added new ↔ key ∈ new.keys ∧ key ∉ old.keys := by
  simp [added]

theorem mem_removed : key ∈ old.removed new ↔ key ∈ old.keys ∧ key ∉ new.keys := by
  simp [removed]

end ContainerFacts

/-- Why an edit of the roots reaches a file: its key moved, or an import leads to a key that came or went, is under
one, or leads to the parent of one that came. -/
inductive PyFacts.Reaches (old new : PyFacts) (path : WireText) (imports : List StoredImport) : Prop
  | moved (h : path ∈ old.containers.moved new.containers)
  | target (i : StoredImport) (hi : i ∈ imports) (key : WireText)
      (hkey : key ∈ old.containers.removed new.containers ++ old.containers.added new.containers)
      (h : i.target = some (.container, key))
  | specifier (i : StoredImport) (hi : i ∈ imports) (key text : WireText)
      (hkey : key ∈ old.containers.removed new.containers ++ old.containers.added new.containers)
      (h : i.specifier = some text) (hunder : (Matcher.under key ['.']).accepts text = true)
  | parent (i : StoredImport) (hi : i ∈ imports) (key head : WireText)
      (hkey : key ∈ old.containers.added new.containers) (hparent : parentKey key = some head)
      (h : i.target = some (.container, head))

theorem everywhere_contains (path : WireText) : ({} : PathScope).contains path := by
  simp [PathScope.contains, pathIsUnder]

theorem StoredImport.meets_target {i : StoredImport} {key : WireText} (h : i.target = some (.container, key)) :
    i.meets (importersOfTarget key) := by
  simp [StoredImport.meets, importersOfTarget, everywhere_contains, h, Matcher.accepts]

theorem StoredImport.meets_under {i : StoredImport} {separator key text : WireText} (h : i.specifier = some text)
    (hunder : (Matcher.under key separator).accepts text) : i.meets (importersUnder separator key) := by
  simp [StoredImport.meets, importersUnder, everywhere_contains, h, hunder]

namespace PyFacts

variable {old new : PyFacts} {imports : List StoredImport} (hroots : old.roots ≠ new.roots)

include hroots

theorem delta_affected (h : old.containers.moved new.containers ≠ [] ∨
      old.containers.removed new.containers ++ old.containers.added new.containers ≠ []) :
    old.delta new = .affected ((old.containers.moved new.containers).map fun path => { under := path })
      ((old.containers.removed new.containers ++ old.containers.added new.containers).map importersOfTarget ++
        (old.containers.added new.containers).map (importersUnder ['.']) ++
        (old.containers.removed new.containers).map (importersUnder ['.']) ++
        ((old.containers.added new.containers).filterMap parentKey).dedup.map importersOfTarget) := by
  have hsome : ¬ ((((old.containers.moved new.containers).map fun path => ({ under := path } : PathScope)).isEmpty &&
      ((old.containers.removed new.containers ++ old.containers.added new.containers).map importersOfTarget ++
        (old.containers.added new.containers).map (importersUnder ['.'])).isEmpty)) := by
    simp only [Bool.and_eq_true, List.isEmpty_iff, List.map_eq_nil_iff, List.append_eq_nil_iff]
    rintro ⟨hmoved, ⟨hremoved, hadded⟩, _⟩
    simp [hmoved, hremoved, hadded] at h
  unfold delta containerDelta
  rw [if_neg hroots]
  rw [if_neg hsome]
  rfl

/-- The delta selects every file that the edit reaches. -/
theorem Reaches.selects (h : old.Reaches new path imports) : (old.delta new).selects path imports := by
  cases h with
  | moved h =>
    rw [delta_affected hroots (.inl (ne_nil_of_mem h))]
    refine Bool.or_eq_true_iff.mpr (.inl (any_eq_true.mpr ⟨{ under := path }, mem_map.mpr ⟨path, h, rfl⟩, ?_⟩))
    simp [PathScope.contains, pathIsUnder_self]
  | target i hi key hkey h =>
    rw [delta_affected hroots (.inr (ne_nil_of_mem hkey))]
    refine Bool.or_eq_true_iff.mpr (.inr (any_eq_true.mpr ⟨importersOfTarget key, ?_,
      any_eq_true.mpr ⟨i, hi, StoredImport.meets_target h⟩⟩))
    simp only [mem_append, mem_map]
    exact .inl (.inl (.inl ⟨key, mem_append.mp hkey, rfl⟩))
  | specifier i hi key _ hkey h hunder =>
    rw [delta_affected hroots (.inr (ne_nil_of_mem hkey))]
    refine Bool.or_eq_true_iff.mpr (.inr (any_eq_true.mpr ⟨importersUnder ['.'] key, ?_,
      any_eq_true.mpr ⟨i, hi, StoredImport.meets_under h hunder⟩⟩))
    simp only [mem_append, mem_map]
    rcases mem_append.mp hkey with hkey | hkey
    · exact .inl (.inr ⟨key, hkey, rfl⟩)
    · exact .inl (.inl (.inr ⟨key, hkey, rfl⟩))
  | parent i hi key head hkey hparent h =>
    rw [delta_affected hroots (.inr (ne_nil_of_mem (mem_append_right _ hkey)))]
    refine Bool.or_eq_true_iff.mpr (.inr (any_eq_true.mpr ⟨importersOfTarget head, ?_,
      any_eq_true.mpr ⟨i, hi, StoredImport.meets_target h⟩⟩))
    simp only [mem_append, mem_map, mem_dedup, mem_filterMap]
    exact .inr ⟨head, ⟨key, hkey, hparent⟩, rfl⟩

end PyFacts

theorem DottedName.under_top (d : DottedName) : (Matcher.under d.top.1 ['.']).accepts d.text := by
  obtain ⟨top, rest⟩ := d
  cases rest with
  | nil => simp [Matcher.accepts, DottedName.text, dotted_singleton]
  | cons name rest =>
    have htext : DottedName.text ⟨top, name :: rest⟩ = top.1 ++ '.' :: dotted ((name :: rest).map (·.1)) := by
      have happend := @dotted_append [top.1] ((name :: rest).map (·.1)) (by simp) (by simp)
      rw [dotted_singleton] at happend
      exact happend
    rw [htext]
    simp [Matcher.accepts, isPrefixOf_iff_prefix]

namespace PyProject

variable {p q : PyProject} {sites : List ImportSite} {key : WireText}

theorem hasContainer_eq_true_iff : p.hasContainer key ↔ key ∈ p.containers := by
  unfold hasContainer
  rw [contains_iff_mem]

section

variable (h : p.hasContainer key ≠ q.hasContainer key)

include h

theorem mem_added_of_ne (hp : p.hasContainer key = false) : key ∈ p.facts.containers.added q.facts.containers := by
  refine ContainerFacts.mem_added.mpr ⟨hasContainer_eq_true_iff.mp ?_, fun hmem => ?_⟩
  · rw [hp] at h
    exact Bool.eq_true_of_not_eq_false h.symm
  · rw [hasContainer_eq_true_iff.mpr hmem] at hp
    cases hp

theorem mem_removed_of_ne (hp : p.hasContainer key) : key ∈ p.facts.containers.removed q.facts.containers := by
  refine ContainerFacts.mem_removed.mpr ⟨hasContainer_eq_true_iff.mp hp, fun hmem => ?_⟩
  exact h (hp.trans (hasContainer_eq_true_iff.mpr hmem).symm)

theorem mem_changed_of_ne :
    key ∈ p.facts.containers.removed q.facts.containers ++ p.facts.containers.added q.facts.containers := by
  cases hp : p.hasContainer key with
  | true => exact mem_append_left _ (mem_removed_of_ne h hp)
  | false => exact mem_append_right _ (mem_added_of_ne h hp)

end

variable {e : ImportEdge}

theorem submoduleEdge_container {source : FromModule} {leaf : FromLeaf} (h : p.submoduleEdge source leaf = some e) :
    p.hasContainer e.container := by
  cases leaf with
  | star => cases h
  | named name renamed =>
    rw [submoduleEdge] at h
    split at h
    next hours =>
      cases h
      exact hours
    next => cases h

/-- An import that leads out of the project is specified by its key. -/
theorem siteEdges_specifier {m : ModuleCtx} {site : ImportSite} (he : e ∈ p.siteEdges m site)
    (hrelative : e.relative = false) (hforeign : p.hasContainer e.container = false) : e.specifier = e.container := by
  cases site with
  | dynamic name =>
    obtain rfl := mem_singleton.mp he
    rfl
  | ownDynamic =>
    rw [siteEdges] at he
    split at he
    next => cases he
    next =>
      obtain ⟨container, _, rfl⟩ := mem_map.mp he
      cases hrelative
  | statement st =>
    cases st with
    | importNames leaves =>
      obtain ⟨leaf, _, rfl⟩ := mem_map.mp he
      rfl
    | fromImport name leaves =>
      rw [siteEdges, importEdges] at he
      split at he
      next => cases he
      next source hsource =>
        rcases mem_cons.mp he with rfl | he
        · cases name with
          | absolute name =>
            cases hsource
            rfl
          | relative level tail =>
            obtain ⟨container, _, rfl⟩ := Option.map_eq_some_iff.mp hsource
            cases hrelative
        · split at he
          next =>
            obtain ⟨leaf, _, hleaf⟩ := mem_filterMap.mp he
            have hours := submoduleEdge_container hleaf
            rw [hforeign] at hours
            cases hours
          next => cases he

theorem imports_specifier {i : EmittedImport} (hi : i ∈ p.imports path sites) (h : i.target = .externalModule key) :
    i.specifier = key := by
  unfold imports at hi
  dsimp only at hi
  split at hi
  next =>
    obtain ⟨e, he, rfl⟩ := mem_map.mp (mem_of_mem_keepFirst hi)
    obtain ⟨site, _, he⟩ := mem_flatMap.mp he
    unfold emit at h ⊢
    split at h
    next => cases h
    next hnot =>
      cases h
      simp only [Bool.or_eq_true, not_or, Bool.not_eq_true] at hnot
      exact siteEdges_specifier he hnot.1 hnot.2
  next => cases hi

theorem exists_import {st : ImportStatement} (hst : .statement st ∈ sites)
    (hd : (ModuleCtx.forFile (p.containerFor path)).declares)
    (he : e ∈ p.importEdges (ModuleCtx.forFile (p.containerFor path)) st) :
    ∃ i ∈ p.imports path sites, i.target = (p.emit e).target := by
  unfold imports
  rw [if_pos hd]
  refine exists_mem_keepFirst (mem_map.mpr ⟨e, mem_flatMap.mpr ⟨_, hst, he⟩, rfl⟩) not_mem_nil

def storedImports (p : PyProject) (path : WireText) (sites : List ImportSite) : List StoredImport :=
  (p.imports path sites).map (·.stored path)

section Unreached

variable {m : ModuleCtx} {st : ImportStatement}
  (hm : m = ModuleCtx.forFile (p.containerFor path)) (hd : m.declares) (hst : .statement st ∈ sites)
  (hun : ¬ p.facts.Reaches q.facts path (p.storedImports path sites))

include hm hd hst hun

theorem hasContainer_edge {e : ImportEdge} (he : e ∈ p.importEdges m st) (hrelative : e.relative = false) :
    p.hasContainer e.container = q.hasContainer e.container := by
  subst hm
  by_contra hne
  obtain ⟨i, hi, htarget⟩ := exists_import hst hd he
  have hmem : i.stored path ∈ p.storedImports path sites := mem_map.mpr ⟨i, hi, rfl⟩
  have hchanged := mem_changed_of_ne hne
  cases hp : p.hasContainer e.container with
  | true =>
    have hours : i.target = .resolvedModule e.container := by rw [htarget]; simp [emit, hp]
    exact hun (.target (i.stored path) hmem e.container hchanged (by simp [EmittedImport.stored, hours]))
  | false =>
    have hforeign : i.target = .externalModule e.container := by rw [htarget]; simp [emit, hp, hrelative]
    have hspecifier := imports_specifier hi hforeign
    refine hun (.specifier (i.stored path) hmem e.container e.container hchanged ?_ (by simp [Matcher.accepts]))
    rw [← hspecifier]
    rfl

theorem hasContainer_leafTop {leaves : List (DottedName × Option WireText)} (hleaves : st = .importNames leaves)
    {leaf : DottedName × Option WireText} (hleaf : leaf ∈ leaves) :
    p.hasContainer leaf.1.top.1 = q.hasContainer leaf.1.top.1 := by
  have he : ⟨leaf.1.text, leaf.1.text, false⟩ ∈ p.importEdges m st := by
    rw [hleaves]
    exact mem_map.mpr ⟨leaf, hleaf, rfl⟩
  have hsame := hasContainer_edge hm hd hst hun he rfl
  by_contra hne
  cases hp : p.hasContainer leaf.1.text with
  | true =>
    have hptop := hasContainer_top leaf.1 hp
    have hqtop := hasContainer_top leaf.1 (hsame ▸ hp)
    exact hne (hptop.trans hqtop.symm)
  | false =>
    subst hm
    obtain ⟨i, hi, htarget⟩ := exists_import hst hd he
    have hmem : i.stored path ∈ p.storedImports path sites := mem_map.mpr ⟨i, hi, rfl⟩
    have hforeign : i.target = .externalModule leaf.1.text := by rw [htarget]; simp [emit, hp]
    have hspecifier := imports_specifier hi hforeign
    refine hun (.specifier (i.stored path) hmem leaf.1.top.1 leaf.1.text (mem_changed_of_ne hne) ?_ leaf.1.under_top)
    rw [← hspecifier]
    rfl

section

variable {name : FromName} {leaves : List FromLeaf} (hleaves : st = .fromImport name leaves) {source : FromModule}
  (hsource : name.module m = some source)

include hleaves hsource

theorem hasContainer_submodule (hours : (source.relative || p.hasContainer source.container)) {n : PyName}
    {renamed : Option WireText} (hleaf : .named n renamed ∈ leaves) :
    p.hasContainer (submoduleOf source.container n) = q.hasContainer (submoduleOf source.container n) := by
  have hedges : p.importEdges m st = ⟨source.container, source.written, source.relative⟩ ::
      leaves.filterMap (p.submoduleEdge source) := by
    rw [hleaves, importEdges, hsource]
    simp [hours]
  by_contra hne
  cases hp : p.hasContainer (submoduleOf source.container n) with
  | true =>
    have he : ⟨submoduleOf source.container n, submoduleSpecifier source.written n, false⟩ ∈ p.importEdges m st := by
      rw [hedges]
      refine mem_cons_of_mem _ (mem_filterMap.mpr ⟨_, hleaf, ?_⟩)
      rw [submoduleEdge, if_pos hp]
    exact hne (hasContainer_edge hm hd hst hun he rfl)
  | false =>
    subst hm
    have he : ⟨source.container, source.written, source.relative⟩ ∈
        p.importEdges (ModuleCtx.forFile (p.containerFor path)) st := by
      rw [hedges]
      exact mem_cons_self ..
    obtain ⟨i, hi, htarget⟩ := exists_import hst hd he
    have hinside : i.target = .resolvedModule source.container := by rw [htarget]; simp [emit, hours]
    have hparent : parentKey (submoduleOf source.container n) = some source.container := by
      rw [parentKey, submoduleOf, rsplitOnce_append n.2]
      rfl
    exact hun (.parent (i.stored path) (mem_map.mpr ⟨i, hi, rfl⟩) _ _ (mem_added_of_ne hne hp) hparent
      (by simp [EmittedImport.stored, hinside]))

theorem inside_eq :
    (source.relative || p.hasContainer source.container) = (source.relative || q.hasContainer source.container) := by
  cases hrelative : source.relative with
  | true => rfl
  | false =>
    have he : ⟨source.container, source.written, source.relative⟩ ∈ p.importEdges m st := by
      rw [hleaves, importEdges, hsource]
      exact mem_cons_self ..
    rw [hasContainer_edge hm hd hst hun he hrelative]

end

/-- A statement none of whose keys came or went emits the same imports. -/
theorem emitted_eq : (p.importEdges m st).map p.emit = (q.importEdges m st).map q.emit := by
  have hemit : ∀ e ∈ p.importEdges m st, p.emit e = q.emit e := by
    intro e he
    unfold emit
    cases hrelative : e.relative with
    | true => rfl
    | false => rw [hasContainer_edge hm hd hst hun he hrelative]
  have hedges : p.importEdges m st = q.importEdges m st := by
    cases hform : st with
    | importNames leaves => rfl
    | fromImport name leaves =>
      rw [importEdges, importEdges]
      cases hsource : name.module m with
      | none => rfl
      | some source =>
        have hinside := inside_eq hm hd hst hun hform hsource
        dsimp only
        rw [← hinside]
        split
        next hours =>
          refine congrArg _ (filterMap_congr fun leaf hleaf => ?_)
          cases leaf with
          | star => rfl
          | named n renamed =>
            rw [submoduleEdge, submoduleEdge, hasContainer_submodule hm hd hst hun hform hsource hours hleaf]
        next => rfl
  rw [← hedges]
  exact map_congr_left hemit

theorem bindings_eq : p.bindings m st = q.bindings m st := by
  cases hform : st with
  | importNames leaves =>
    refine map_congr_left fun leaf hleaf => ?_
    have htop := hasContainer_leafTop hm hd hst hun hform hleaf
    have he : ⟨leaf.1.text, leaf.1.text, false⟩ ∈ p.importEdges m st := by
      rw [hform]
      exact mem_map.mpr ⟨leaf, hleaf, rfl⟩
    have htext := hasContainer_edge hm hd hst hun he rfl
    unfold moduleBinding
    rw [htop, htext]
  | fromImport name leaves =>
    rw [bindings, bindings]
    cases hsource : name.module m with
    | none => rfl
    | some source =>
      dsimp only
      rw [inside_eq hm hd hst hun hform hsource]

end Unreached

theorem lookup_map_self {g : WireText → WireText} {files : List WireText} {f : WireText} (h : f ∈ files) :
    (files.map fun path => (path, g path)).lookup f = some (g f) := by
  induction files with
  | nil => cases h
  | cons _ _ ih =>
    rw [map_cons, lookup_cons]
    split
    next hf =>
      rw [beq_iff_eq] at hf
      rw [hf]
    next hf =>
      rcases mem_cons.mp h with rfl | h
      · simp at hf
      · exact ih h

theorem mem_moved {f : WireText} (hp : f ∈ p.files) (hfiles : p.files = q.files)
    (hinfo : p.containerFor f ≠ q.containerFor f) : f ∈ p.facts.containers.moved q.facts.containers := by
  have hlookup : ∀ (r : PyProject), f ∈ r.files →
      r.facts.containers.files.lookup f = some (r.containerFor f).key := fun r hr => lookup_map_self hr
  refine mem_filter.mpr ⟨?_, ?_⟩
  · rw [mem_dedup, map_append, mem_append]
    exact .inl (mem_map.mpr ⟨(f, (p.containerFor f).key), mem_map.mpr ⟨f, hp, rfl⟩, rfl⟩)
  · rw [hlookup p hp, hlookup q (hfiles ▸ hp)]
    simp only [bne_iff_ne, ne_eq, Option.some.injEq]
    exact fun hkey => hinfo (containerFor_eq_of_key hkey)

end PyProject

/-- `import pkg2.util`, in a file that moves with no root. -/
def importUtil : ImportStatement :=
  .importNames [(⟨⟨"pkg2".toList, by decide⟩, [⟨"util".toList, by decide⟩]⟩, none)]

end GMesh
