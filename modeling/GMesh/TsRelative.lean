import GMesh.ResolutionDelta
import GMesh.TextSplits
import Mathlib.Data.List.Sort

namespace GMesh

open List

namespace TsResolve

def extensions : List WireText :=
  [".ts", ".tsx", ".d.ts", ".js", ".jsx", ".mjs", ".cjs", ".mts", ".cts"].map String.toList

/-- A JS extension names the emitted file, whose source has one of these. -/
def tsSubstitutions : List (WireText × List WireText) :=
  [(".js", [".ts", ".tsx", ".d.ts"]), (".jsx", [".tsx"]), (".mjs", [".mts", ".d.mts"]),
    (".cjs", [".cts", ".d.cts"])].map fun s => (s.1.toList, s.2.map String.toList)

def rootAddress : WireText := ['.']

def indexName : WireText := "index".toList

def basename (path : WireText) : WireText := path.rtakeWhile (· ≠ '/')

def extensionOf (path : WireText) : WireText :=
  let tail := (basename path).rtakeWhile (· ≠ '.')
  if tail.length + 1 < (basename path).length then ('.' :: tail).map Char.toLower else []

def relPath (path : WireText) : WireText :=
  let slashed := path.map fun c => if c = '\\' then '/' else c
  if ['.', '/'].isPrefixOf slashed then slashed.drop 2 else slashed

def grammarExtensions : List WireText :=
  [".ts", ".mts", ".cts", ".tsx", ".js", ".jsx", ".mjs", ".cjs"].map String.toList

def grammarFor (path : WireText) : Bool :=
  let name := basename (relPath path)
  let tail := name.rtakeWhile (· ≠ '.')
  decide (tail.length < name.length ∧ '.' :: tail.map Char.toLower ∈ grammarExtensions)

def candidatePaths (base : WireText) : List WireText :=
  if base = rootAddress then extensions.map (indexName ++ ·)
  else
    match tsSubstitutions.find? fun s => s.1 == extensionOf base with
    | some s => s.2.map (base.take (base.length - (extensionOf base).length) ++ ·) ++ [base]
    | none =>
      if grammarFor base then [base]
      else extensions.map (base ++ ·) ++ extensions.map (base ++ '/' :: indexName ++ ·)

def stripSuffix (text tail : WireText) : Option WireText :=
  if tail.isSuffixOf text then some (text.take (text.length - tail.length)) else none

def addressesResolvingTo (path : WireText) : List WireText :=
  let stems := extensions.flatMap fun e => (stripSuffix path e).toList.flatMap fun stem =>
    stem :: (stripSuffix stem ('/' :: indexName)).toList ++ if stem = indexName then [rootAddress] else []
  let emitted := tsSubstitutions.flatMap fun s => s.2.filterMap fun ts => (stripSuffix path ts).map (· ++ s.1)
  ((stems ++ emitted).filter fun base =>
    decide (base ≠ path ∧ base ≠ [] ∧ path ∈ candidatePaths base)).dedup.insertionSort (· ≤ ·)

variable {base path text tail stem : WireText}

theorem stripSuffix_eq_some : stripSuffix text tail = some stem ↔ text = stem ++ tail := by
  unfold stripSuffix
  constructor
  · intro h
    split at h
    next hs =>
      obtain ⟨front, rfl⟩ := isSuffixOf_iff_suffix.mp hs
      cases h
      simp
    next => cases h
  · rintro rfl
    rw [if_pos (isSuffixOf_iff_suffix.mpr (suffix_append stem tail))]
    simp

def Derives (path base : WireText) : Prop :=
  (∃ e ∈ extensions, ∃ stem, path = stem ++ e ∧
    (base = stem ∨ stem = base ++ '/' :: indexName ∨ stem = indexName ∧ base = rootAddress)) ∨
  ∃ s ∈ tsSubstitutions, ∃ ts ∈ s.2, ∃ stem, path = stem ++ ts ∧ base = stem ++ s.1

theorem mem_addressesResolvingTo : base ∈ addressesResolvingTo path ↔
    Derives path base ∧ base ≠ path ∧ base ≠ [] ∧ path ∈ candidatePaths base := by
  have hroot : ∀ stem, base ∈ (if stem = indexName then [rootAddress] else []) ↔
      stem = indexName ∧ base = rootAddress := by
    intro stem
    split
    next h => simp [h]
    next h => simp [h]
  simp only [addressesResolvingTo, mem_insertionSort, mem_dedup, mem_filter, decide_eq_true_eq,
    mem_append, mem_flatMap, mem_filterMap, Option.map_eq_some_iff, Option.mem_toList,
    stripSuffix_eq_some, mem_cons, hroot, cons_append, Derives, @eq_comm _ _ base]

theorem rtakeWhile_append {p : Char → Bool} {front : WireText} (h : ∀ c ∈ tail, p c) :
    (front ++ tail).rtakeWhile p = front.rtakeWhile p ++ tail := by
  unfold List.rtakeWhile
  rw [reverse_append, takeWhile_append_of_pos (by simpa using h), reverse_append, reverse_reverse]

theorem extensionOf_append (front : WireText) (h : ∀ c ∈ tail, c ≠ '.' ∧ c ≠ '/') :
    extensionOf (front ++ '.' :: tail) = ('.' :: tail).map Char.toLower ∨ extensionOf (front ++ '.' :: tail) = [] := by
  have hname : basename (front ++ '.' :: tail) = basename front ++ '.' :: tail :=
    rtakeWhile_append (by simpa using fun c hc => (h c hc).2)
  have htail : (basename front ++ '.' :: tail).rtakeWhile (· ≠ '.') = tail := by
    rw [← singleton_append, ← append_assoc, rtakeWhile_append (by simpa using fun c hc => (h c hc).1),
      rtakeWhile_concat_neg _ _ _ (by simp), nil_append]
  unfold extensionOf
  simp only [hname, htail]
  exact (ite_eq_or_eq _ _ _)

theorem extensionOf_split (h : extensionOf base ≠ []) :
    ∃ front written, base = front ++ written ∧ written.map Char.toLower = extensionOf base := by
  unfold extensionOf at h ⊢
  dsimp only at h ⊢
  split at h
  next hlong =>
    rw [if_pos hlong]
    obtain ⟨front, hfront⟩ : basename base <:+ base := rtakeWhile_suffix _ _
    have hsplit : (basename base).rdropWhile (fun c => decide (c ≠ '.')) ++
        (basename base).rtakeWhile (fun c => decide (c ≠ '.')) = basename base := rdropWhile_append_rtakeWhile
    have hne : (basename base).rdropWhile (fun c => decide (c ≠ '.')) ≠ [] := by
      intro hnil
      rw [hnil, nil_append] at hsplit
      rw [hsplit] at hlong
      omega
    have hdot : ((basename base).rdropWhile fun c => decide (c ≠ '.')).getLast hne = '.' := by
      simpa using rdropWhile_last_not _ _ hne
    rw [← dropLast_append_getLast hne, hdot, append_assoc, singleton_append] at hsplit
    refine ⟨front ++ ((basename base).rdropWhile fun c => decide (c ≠ '.')).dropLast, '.' :: _, ?_, rfl⟩
    rw [append_assoc, hsplit, hfront]
  next => exact absurd rfl h

/-- The condition on an address under which it is read off its candidates: a JS extension is written in lower case. -/
def LowerCase (base : WireText) : Prop := extensionOf base ∈ tsSubstitutions.map Prod.fst → extensionOf base <:+ base

/-- A candidate is the address, its index file, or the address with an extension added or exchanged. -/
theorem mem_candidatePaths (h : path ∈ candidatePaths base) :
    path = base ∨ (base = rootAddress ∧ ∃ e ∈ extensions, path = indexName ++ e) ∨
    (base ≠ rootAddress ∧ ∃ e ∈ extensions, path = base ++ e ∨ path = base ++ '/' :: indexName ++ e) ∨
    ∃ s ∈ tsSubstitutions, s.1 = extensionOf base ∧
      ∃ ts ∈ s.2, path = base.take (base.length - (extensionOf base).length) ++ ts := by
  unfold candidatePaths at h
  split at h
  next hroot =>
    obtain ⟨e, he, rfl⟩ := mem_map.mp h
    exact .inr (.inl ⟨hroot, e, he, rfl⟩)
  next hroot =>
    split at h
    next s hfind =>
      have hs : s.1 = extensionOf base := by simpa using find?_some hfind
      rcases mem_append.mp h with h | h
      · obtain ⟨ts, hts, rfl⟩ := mem_map.mp h
        exact .inr (.inr (.inr ⟨s, mem_of_find?_eq_some hfind, hs, ts, hts, rfl⟩))
      · exact .inl (mem_singleton.mp h)
    next =>
      split at h
      next => exact .inl (mem_singleton.mp h)
      next =>
        rcases mem_append.mp h with h | h
        · obtain ⟨e, he, rfl⟩ := mem_map.mp h
          exact .inr (.inr (.inl ⟨hroot, e, he, .inl rfl⟩))
        · obtain ⟨e, he, rfl⟩ := mem_map.mp h
          exact .inr (.inr (.inl ⟨hroot, e, he, .inr rfl⟩))

theorem stem_eq {e : WireText} (h : stem ++ e = base) : base.take (base.length - e.length) = stem := by
  subst h
  simp

theorem derives_of_candidate (hlower : LowerCase base) (hne : base ≠ path) (h : path ∈ candidatePaths base) :
    Derives path base := by
  rcases mem_candidatePaths h with rfl | ⟨hroot, e, he, rfl⟩ | ⟨-, e, he, rfl | rfl⟩ | ⟨s, hmem, hs, ts, hts, rfl⟩
  · exact absurd rfl hne
  · exact .inl ⟨e, he, indexName, rfl, .inr (.inr ⟨rfl, hroot⟩)⟩
  · exact .inl ⟨e, he, base, rfl, .inl rfl⟩
  · exact .inl ⟨e, he, _, rfl, .inr (.inl rfl)⟩
  · obtain ⟨front, hfront⟩ := hlower (hs ▸ mem_map_of_mem hmem)
    exact .inr ⟨s, hmem, ts, hts, _, rfl, by rw [stem_eq hfront, hs, hfront]⟩

/-- An address whose extension is not in lower case has a candidate that it is not read off. -/
theorem exists_candidate_not_derived (h : ¬LowerCase base) :
    ∃ path, path ∈ candidatePaths base ∧ path ≠ base ∧ ¬Derives path base := by
  obtain ⟨hjs, hwritten⟩ := Classical.not_imp.mp h
  have hnil : extensionOf base ≠ [] := by
    intro hnil
    rw [hnil] at hjs
    revert hjs
    decide
  have hroot : base ≠ rootAddress := by
    rintro rfl
    exact hnil (by decide)
  obtain ⟨front, written, hbase, hlower⟩ := extensionOf_split hnil
  obtain ⟨s, hfind⟩ : ∃ s, tsSubstitutions.find? (fun s => s.1 == extensionOf base) = some s := by
    obtain ⟨s, hs, he⟩ := mem_map.mp hjs
    exact Option.isSome_iff_exists.mp (find?_isSome.mpr ⟨s, hs, by simp [he]⟩)
  have hs : s.1 = extensionOf base := by simpa using find?_some hfind
  have hmem := mem_of_find?_eq_some hfind
  have hsource : ∀ s ∈ tsSubstitutions, ∃ ts ∈ s.2, ts.length = s.1.length ∧ ts.map Char.toLower ≠ s.1 := by decide
  obtain ⟨ts, hts, hlength, hother⟩ := hsource s hmem
  have hlen : written.length = ts.length := by rw [hlength, hs, ← hlower, length_map]
  have hstem : base.take (base.length - (extensionOf base).length) = front := by
    rw [← hlower, length_map]
    exact stem_eq hbase.symm
  refine ⟨front ++ ts, ?_, ?_, ?_⟩
  · unfold candidatePaths
    rw [if_neg hroot, hfind, hstem]
    exact mem_append_left _ (mem_map_of_mem hts)
  · rw [hbase]
    intro hsame
    rw [append_cancel_left hsame, hlower, hs] at hother
    exact hother rfl
  · rintro (⟨e, he, stem, hpath, hread⟩ | ⟨s', hs', ts', _, stem, _, hread⟩)
    · have hpos : ∀ e ∈ extensions, 0 < e.length := by decide
      have hpos := hpos e he
      have hlengths := congrArg List.length hpath
      rcases hread with rfl | rfl | ⟨-, hread⟩
      · simp [hbase] at hlengths
        omega
      · simp [hbase] at hlengths
        omega
      · exact hroot hread
    · have hplain : ∀ s ∈ tsSubstitutions, s.1 = '.' :: s.1.tail ∧ (s.1.tail.all fun c => c ≠ '.' ∧ c ≠ '/') ∧
          s.1.map Char.toLower = s.1 := by decide
      obtain ⟨hdot, hletters, hcase⟩ := hplain s' hs'
      have hext := extensionOf_append stem (by simpa using hletters)
      rw [← hdot, ← hread, hcase] at hext
      exact hwritten (hext.resolve_right hnil ▸ ⟨stem, hread.symm⟩)

/-- An address is read off every other path that it can name, and off no path besides, exactly when its own extension
is no JS extension in another case than lower. -/
theorem addresses_inverse_iff (hbase : base ≠ []) :
    (∀ path, path ≠ base → (base ∈ addressesResolvingTo path ↔ path ∈ candidatePaths base)) ↔ LowerCase base := by
  constructor
  · intro hinverse
    by_contra hlower
    obtain ⟨path, hcandidate, hne, hnot⟩ := exists_candidate_not_derived hlower
    exact hnot (mem_addressesResolvingTo.mp ((hinverse path hne).mpr hcandidate)).1
  · intro hlower path hne
    rw [mem_addressesResolvingTo]
    exact ⟨fun h => h.2.2.2, fun h => ⟨derives_of_candidate hlower hne.symm h, hne.symm, hbase, h⟩⟩

theorem addresses_inverse_missing : "src/missing".toList ∈ addressesResolvingTo "src/missing/index.ts".toList :=
  ((addresses_inverse_iff (by decide)).mpr (by unfold LowerCase; decide) _ (by decide)).mpr (by decide)

/-- The file that `./a.JS` names does not list its address. -/
theorem addresses_inverse_upperCase : "src/a.ts".toList ∈ candidatePaths "src/a.JS".toList ∧
    "src/a.JS".toList ∉ addressesResolvingTo "src/a.ts".toList := by
  decide +kernel

open Option

def dotDot : WireText := ['.', '.']

/-- `./x`, `../x`, `.` and `..`; everything else is bare or private. -/
def isRelativeSpecifier (specifier : WireText) : Bool :=
  specifier == rootAddress || specifier == dotDot || ['.', '/'].isPrefixOf specifier ||
    ['.', '.', '/'].isPrefixOf specifier

def pushSegment (segments : List WireText) (segment : WireText) : List WireText :=
  if segment = [] ∨ segment = ['.'] then segments
  else if segment = dotDot ∧ segments.getLast?.any (· ≠ dotDot) then segments.dropLast
  else segments ++ [segment]

/-- Dot segments and empty ones are dropped, each `..` is folded into its parent. -/
def normalize (path : WireText) : WireText :=
  let segments := (path.splitOn '/').foldl pushSegment []
  if segments = [] then rootAddress else ['/'].intercalate segments

def join (dir name : WireText) : WireText := if dir = [] then name else dir ++ '/' :: name

def dirname (path : WireText) : WireText := (path.rdropWhile (· ≠ '/')).dropLast

def escapes (normalized : WireText) : Bool :=
  normalized == [] || normalized == rootAddress || normalized == dotDot || ['.', '.', '/'].isPrefixOf normalized

def importerDir (importer : WireText) : Option WireText :=
  if (importer.splitOn '/').contains dotDot ∨ importer.head? = some '/' then none else some (dirname importer)

def firstExisting (existence bases : List WireText) : Option WireText :=
  ((bases.flatMap candidatePaths).map relPath).find? existence.contains

def resolveRelative (existence : List WireText) (specifier importer : WireText) : Option WireText :=
  if isRelativeSpecifier specifier then
    (importerDir importer).bind fun dir =>
      let base := normalize (join dir specifier)
      if base ≠ rootAddress ∧ escapes base then none else firstExisting existence [base]
  else none

/-- What the specifier names before any candidate is tried: where an unresolved import waits. -/
def relativeAddress (specifier importer : WireText) : Option WireText :=
  if isRelativeSpecifier specifier then some (normalize (join (dirname importer) specifier)) else none

/-- For each address of `path` the candidate that answered it before `path` existed. -/
def candidatesShadowedBy (path : WireText) (existence : List WireText) : List WireText :=
  ((addressesResolvingTo path).filterMap fun address =>
    ((candidatePaths address).dropWhile (· ≠ path)).tail.find? fun c =>
      existence.contains (relPath c)).dedup.insertionSort (· ≤ ·)

/-- The exact targets that a file offers, once; `others` are those of aliases, packages and `#` keys. -/
def sourceChanged (others announced existence : List WireText) (path : WireText) : List WireText :=
  if announced.contains path then []
  else (addressesResolvingTo path ++ candidatesShadowedBy path existence ++ others).dedup.insertionSort (· ≤ ·)

variable {specifier importer : WireText} {existence announced others segments : List WireText}

theorem mem_pushSegment {segment s : WireText} (h : s ∈ pushSegment segments segment) :
    s ∈ segments ∨ s = segment ∧ segment ≠ [] ∧ segment ≠ ['.'] := by
  unfold pushSegment at h
  split at h
  next => exact .inl h
  next hplain =>
    split at h
    next => exact .inl (dropLast_subset _ h)
    next =>
      rcases mem_append.mp h with h | h
      · exact .inl h
      · exact .inr ⟨mem_singleton.mp h, not_or.mp hplain⟩

/-- A segment that names something, `..` included. -/
abbrev Plain (segment : WireText) : Prop := segment ≠ [] ∧ segment ≠ ['.'] ∧ '/' ∉ segment

theorem intercalate_plain (hsegments : ∀ s ∈ segments, Plain s) :
    ¬['.', '/'] <+: ['/'].intercalate segments ∧ (['/'].intercalate segments).head? ≠ some '/' := by
  cases segments with
  | nil => decide
  | cons s rest =>
    obtain ⟨hnil, hdot, hslash⟩ := hsegments s (mem_cons_self ..)
    obtain ⟨tail, htail⟩ : s <+: ['/'].intercalate (s :: rest) := by cases rest <;> simp [intercalate_cons_cons]
    rw [← htail]
    obtain _ | ⟨c, t⟩ := s
    · exact absurd rfl hnil
    · refine ⟨fun h => ?_, fun h => hslash (by simp_all)⟩
      obtain _ | ⟨d, t⟩ := t
      · rw [singleton_append, cons_prefix_cons] at h
        exact hdot (by rw [← h.1])
      · simp only [cons_append, cons_prefix_cons] at h
        simp [← h.2.1] at hslash

theorem normalize_not_dotSlash (path : WireText) : ¬['.', '/'] <+: normalize path := by
  have hsegments : ∀ s ∈ (path.splitOn '/').foldl pushSegment [], Plain s := by
    refine List.foldlRecOn (motive := fun segments => ∀ s ∈ segments, Plain s) _ _ (by simp) ?_
    intro segments ih segment hsegment s hs
    rcases mem_pushSegment hs with hs | ⟨rfl, hnil, hdot⟩
    · exact ih s hs
    · exact ⟨hnil, hdot, not_mem_of_mem_splitOn s hsegment⟩
  unfold normalize
  dsimp only
  split
  next => decide
  next => exact (intercalate_plain hsegments).1

theorem not_dotSlash_append {front : WireText} (hfront : ¬['.', '/'] <+: front) (htail : ¬['.', '/'] <+: tail)
    (hroot : front = rootAddress → tail.head? ≠ some '/') : ¬['.', '/'] <+: front ++ tail := by
  intro h
  obtain _ | ⟨c, _ | ⟨d, t⟩⟩ := front
  · exact htail h
  · rw [singleton_append, cons_prefix_cons] at h
    obtain ⟨rest, rfl⟩ := h.2
    exact hroot (by rw [← h.1, rootAddress]) rfl
  · simp only [cons_append, cons_prefix_cons] at h
    exact hfront (by simp [← h.1, ← h.2.1])

theorem slashes_eq (h : '\\' ∉ path) : path.map (fun c => if c = '\\' then '/' else c) = path := by
  conv_rhs => rw [← map_id path]
  refine map_congr_left fun c hc => if_neg ?_
  rintro rfl
  exact h hc

theorem relPath_eq (hslash : '\\' ∉ path) (hdot : ¬['.', '/'] <+: path) : relPath path = path := by
  unfold relPath
  dsimp only
  rw [slashes_eq hslash, if_neg (by simpa using hdot)]

theorem backslash_not_mem_relPath (path : WireText) : '\\' ∉ relPath path := by
  have hslashes : '\\' ∉ path.map fun c => if c = '\\' then '/' else c := by
    intro h
    obtain ⟨c, -, hc⟩ := mem_map.mp h
    split at hc
    next => exact absurd hc (by decide)
    next hne => exact hne hc
  unfold relPath
  dsimp only
  split
  next => exact fun h => hslashes (mem_of_mem_drop h)
  next => exact hslashes

theorem backslash_not_mem_candidate (hbase : '\\' ∉ base) (h : path ∈ candidatePaths base) : '\\' ∉ path := by
  have hext : ∀ e ∈ extensions, '\\' ∉ e ∧ '\\' ∉ indexName ++ e ∧ '\\' ∉ '/' :: indexName ++ e := by decide
  have hts : ∀ s ∈ tsSubstitutions, ∀ ts ∈ s.2, '\\' ∉ ts := by decide
  have happend : ∀ {front tail : WireText}, '\\' ∉ front → '\\' ∉ tail → '\\' ∉ front ++ tail := by
    intro front tail hfront htail
    simp [hfront, htail]
  rcases mem_candidatePaths h with rfl | ⟨-, e, he, rfl⟩ | ⟨-, e, he, rfl | rfl⟩ | ⟨s, hs, -, ts, hmem, rfl⟩
  · exact hbase
  · exact (hext e he).2.1
  · exact happend hbase (hext e he).1
  · rw [append_assoc]
    exact happend hbase (hext e he).2.2
  · exact happend (fun h => hbase (mem_of_mem_take h)) (hts s hs ts hmem)

theorem not_dotSlash_candidate (hbase : ¬['.', '/'] <+: base) (h : path ∈ candidatePaths base) :
    ¬['.', '/'] <+: path := by
  have hext : ∀ e ∈ extensions, ¬['.', '/'] <+: e ∧ e.head? ≠ some '/' ∧ ¬['.', '/'] <+: indexName ++ e ∧
      ¬['.', '/'] <+: '/' :: indexName ++ e := by decide
  have hts : ∀ s ∈ tsSubstitutions, ∀ ts ∈ s.2, ¬['.', '/'] <+: ts ∧ ts.head? ≠ some '/' := by decide
  rcases mem_candidatePaths h with rfl | ⟨-, e, he, rfl⟩ | ⟨hroot, e, he, rfl | rfl⟩ | ⟨s, hs, -, ts, hmem, rfl⟩
  · exact hbase
  · exact (hext e he).2.2.1
  · exact not_dotSlash_append hbase (hext e he).1 fun _ => (hext e he).2.1
  · rw [append_assoc]
    exact not_dotSlash_append hbase (hext e he).2.2.2 fun h => absurd h hroot
  · have htake : ¬['.', '/'] <+: base.take (base.length - (extensionOf base).length) :=
      fun h => hbase (h.trans ( take_prefix _ base))
    exact not_dotSlash_append htake (hts s hs ts hmem).1 fun _ => (hts s hs ts hmem).2

theorem candidatePaths_ne_nil (base : WireText) : candidatePaths base ≠ [] := by
  unfold candidatePaths
  split
  next => decide
  next =>
    split
    next => simp
    next => split <;> simp [extensions]

theorem candidatePaths_nodup (hlower : LowerCase base) : (candidatePaths base).Nodup := by
  have hinj : ∀ front : WireText, Function.Injective (front ++ ·) := fun front => append_right_injective front
  unfold candidatePaths
  split
  next => decide
  next =>
    split
    next s hfind =>
      have hs : s.1 = extensionOf base := by simpa using find?_some hfind
      have hmem := mem_of_find?_eq_some hfind
      have hdistinct : ∀ s ∈ tsSubstitutions, (s.2 ++ [s.1]).Nodup := by decide
      obtain ⟨front, hfront⟩ := hlower (hs ▸ mem_map_of_mem hmem)
      have hnodup := (hdistinct s hmem).map (hinj front)
      rw [map_append, map_singleton, hs, hfront] at hnodup
      rwa [stem_eq hfront]
    next =>
      split
      next => exact nodup_singleton base
      next =>
        have hnodup : (extensions ++ extensions.map ('/' :: indexName ++ ·)).Nodup := by decide
        simpa [Function.comp_def] using hnodup.map (hinj base)

section

variable (hslash : '\\' ∉ base) (hdot : ¬['.', '/'] <+: base)

include hslash hdot

theorem relPath_candidate (h : path ∈ candidatePaths base) : relPath path = path :=
  relPath_eq (backslash_not_mem_candidate hslash h) (not_dotSlash_candidate hdot h)

theorem firstExisting_single : firstExisting existence [base] = (candidatePaths base).find? existence.contains := by
  have hspelled : (candidatePaths base).map relPath = (candidatePaths base).map id :=
    map_congr_left fun c hc => relPath_candidate hslash hdot hc
  rw [firstExisting, flatMap_singleton, hspelled, List.map_id]

/-- A file that comes to answer an import offers the target it is stored under. -/
theorem stored_target_offered (hlower : LowerCase base) (hnil : base ≠ []) (hne : base ≠ path)
    (hpath : path ∉ existence) (h : firstExisting (path :: existence) [base] = some path) :
    (firstExisting existence [base]).getD base ∈
      addressesResolvingTo path ++ candidatesShadowedBy path (path :: existence) := by
  rw [firstExisting_single hslash hdot] at h ⊢
  have hmem := mem_of_find?_eq_some h
  have haddress : base ∈ addressesResolvingTo path :=
    mem_addressesResolvingTo.mpr ⟨derives_of_candidate hlower hne hmem, hne, hnil, hmem⟩
  cases hbefore : (candidatePaths base).find? existence.contains with
  | none => exact mem_append_left _ haddress
  | some g =>
    obtain ⟨-, front, rest, hsplit, hfront⟩ := find?_eq_some_iff_append.mp h
    have hnodup := candidatePaths_nodup hlower
    have hspelled : ∀ c ∈ rest, relPath c = c := fun c hc =>
      relPath_candidate hslash hdot (by simp [hsplit, hc])
    have hearlier : ∀ c ∈ front, c ≠ path ∧ c ∉ existence := by simpa [not_or] using hfront
    rw [hsplit] at hbefore hnodup
    -- nothing before the new file exists, so what answered before comes after it
    have hanswer : rest.find? existence.contains = some g := by
      rw [find?_append, find?_eq_none.mpr (by simpa using fun c hc => (hearlier c hc).2), none_or,
        find?_cons_of_neg (by simpa using hpath)] at hbefore
      exact hbefore
    refine mem_append_right _ ?_
    rw [candidatesShadowedBy, mem_insertionSort, mem_dedup]
    refine mem_filterMap.mpr ⟨base, haddress, ?_⟩
    rw [hsplit, dropWhile_append_of_pos (by simpa using fun c hc => (hearlier c hc).1),
      dropWhile_cons_of_neg (by simp), tail_cons, getD_some, ← hanswer]
    rw [← head?_filter, ← head?_filter]
    refine congrArg List.head? (filter_congr fun c hc => ?_)
    have hother : c ≠ path := by
      rintro rfl
      exact (nodup_cons.mp (nodup_append.mp hnodup).2.1).1 hc
    simp [hspelled c hc, hother]

end

/-- A file that comes to be re-asks every import of `specifier` that it answers: it offers the target that the import
is stored under, unless the file is the address itself. -/
def Reasks (specifier importer base : WireText) : Prop :=
  ∀ others announced existence path, announced ⊆ existence → path ∉ existence →
    resolveRelative (path :: existence) specifier importer = some path → base = path ∨
      (resolveRelative existence specifier importer).getD base ∈
        sourceChanged others announced (path :: existence) path

section

variable (hbase : relativeAddress specifier importer = some base) (hdir : importerDir importer ≠ none)

include hbase hdir

theorem resolveRelative_eq :
    resolveRelative existence specifier importer =
      if base ≠ rootAddress ∧ escapes base then none else firstExisting existence [base] := by
  unfold relativeAddress at hbase
  unfold importerDir at hdir
  split at hbase
  next hrelative =>
    cases hbase
    split at hdir
    next => exact absurd rfl hdir
    next hinside => rw [resolveRelative, if_pos hrelative, importerDir, if_neg hinside, bind_some]
  next => cases hbase

theorem not_reasks (hinside : ¬(base ≠ rootAddress ∧ escapes base))
    (hpath : path ∈ (candidatePaths base).map relPath) (hne : base ≠ path) (haddress : ¬Derives path base)
    (hshadowed : base ∉ candidatesShadowedBy path [path]) : ¬Reasks specifier importer base := by
  intro hreasks
  have hfinds : resolveRelative [path] specifier importer = some path := by
    rw [resolveRelative_eq hbase hdir, if_neg hinside, firstExisting, flatMap_singleton]
    obtain ⟨found, hfound⟩ := isSome_iff_exists.mp (find?_isSome.mpr ⟨path, hpath, (by simp : [path].contains path)⟩)
    rw [hfound, show found = path by simpa using find?_some hfound]
  have hnone : resolveRelative [] specifier importer = none := by
    rw [resolveRelative_eq hbase hdir, if_neg hinside, firstExisting]
    simp
  rcases hreasks [] [] [] path (by simp) (by simp) hfinds with h | h
  · exact hne h
  · rw [hnone, getD_none, sourceChanged, if_neg (by simp), mem_insertionSort, mem_dedup,
      append_nil, mem_append, mem_addressesResolvingTo] at h
    rcases h with h | h
    · exact haddress h.1
    · exact hshadowed h

end

theorem relPath_of_shadowed {c : WireText} (h : c ∈ candidatesShadowedBy path existence) :
    relPath c ∈ existence ∧ ∃ address ∈ addressesResolvingTo path, c ∈ candidatePaths address := by
  rw [candidatesShadowedBy, mem_insertionSort, mem_dedup] at h
  obtain ⟨address, haddress, hfind⟩ := mem_filterMap.mp h
  refine ⟨by simpa using find?_some hfind, address, haddress, ?_⟩
  exact (dropWhile_suffix _).subset (mem_of_mem_tail (mem_of_find?_eq_some hfind))

theorem backslash_not_mem_derived (hpath : '\\' ∉ path) (h : Derives path base) : '\\' ∉ base := by
  have hjs : ∀ s ∈ tsSubstitutions, '\\' ∉ s.1 := by decide
  rcases h with ⟨e, -, stem, rfl, rfl | rfl | ⟨-, rfl⟩⟩ | ⟨s, hs, ts, -, stem, rfl, rfl⟩
  · exact fun h => hpath (mem_append_left _ h)
  · exact fun h => hpath (mem_append_left _ (mem_append_left _ h))
  · decide
  · intro h
    rcases mem_append.mp h with h | h
    · exact hpath (mem_append_left _ h)
    · exact hjs s hs h

/-- A new file re-asks every import of a specifier that it answers exactly when the specifier's address lies outside
the root or is spelled with slashes, with no JS extension in another case than lower. -/
theorem created_file_reasks_iff (hbase : relativeAddress specifier importer = some base)
    (hdir : importerDir importer ≠ none) :
    Reasks specifier importer base ↔ base ≠ rootAddress ∧ escapes base ∨ '\\' ∉ base ∧ LowerCase base := by
  by_cases hinside : base ≠ rootAddress ∧ escapes base
  · refine iff_of_true ?_ (.inl hinside)
    intro others announced existence path _ _ hfound
    rw [resolveRelative_eq hbase hdir, if_pos hinside] at hfound
    cases hfound
  rw [or_iff_right hinside]
  have hdot : ¬['.', '/'] <+: base := by
    unfold relativeAddress at hbase
    split at hbase
    next => exact some.inj hbase ▸ normalize_not_dotSlash _
    next => cases hbase
  constructor
  · intro hreasks
    by_contra hcondition
    by_cases hslash : '\\' ∈ base
    · obtain ⟨c, hc⟩ := exists_mem_of_ne_nil _ (candidatePaths_ne_nil base)
      have hplain := backslash_not_mem_relPath c
      refine not_reasks hbase hdir hinside (mem_map_of_mem hc) ?_ ?_ ?_ hreasks
      · exact fun h => hplain (h ▸ hslash)
      · exact fun h => backslash_not_mem_derived hplain h hslash
      · intro h
        obtain ⟨-, address, haddress, hcandidate⟩ := relPath_of_shadowed h
        have haddress := backslash_not_mem_derived hplain (mem_addressesResolvingTo.mp haddress).1
        exact backslash_not_mem_candidate haddress hcandidate hslash
    · obtain ⟨path, hcandidate, hne, hnot⟩ := exists_candidate_not_derived fun hlower => hcondition ⟨hslash, hlower⟩
      have hspelled := relPath_candidate hslash hdot hcandidate
      refine not_reasks hbase hdir hinside (mem_map.mpr ⟨_, hcandidate, hspelled⟩) hne.symm hnot ?_ hreasks
      intro h
      have hsame := (relPath_of_shadowed h).1
      rw [relPath_eq hslash hdot, mem_singleton] at hsame
      exact hne hsame.symm
  · rintro ⟨hslash, hlower⟩ others announced existence path hannounced hnew hfound
    rw [resolveRelative_eq hbase hdir, if_neg hinside] at hfound ⊢
    refine or_iff_not_imp_left.mpr fun hne => ?_
    have hnil : base ≠ [] := by
      rintro rfl
      exact hinside (by decide)
    have hoffered := stored_target_offered hslash hdot hlower hnil hne hnew hfound
    rw [sourceChanged, if_neg (by simpa using fun h => hnew (hannounced h)), mem_insertionSort, mem_dedup]
    exact mem_append_left _ hoffered

theorem created_file_reasks_index :
    "src/m/index.ts".toList ∈ sourceChanged [] [] ["src/m.ts".toList, "src/m/index.ts".toList] "src/m.ts".toList :=
  (((@created_file_reasks_iff "src/m".toList "./m".toList "src/a.ts".toList
    (by decide +kernel) (by decide +kernel)).mpr (.inr (by unfold LowerCase; decide +kernel))) [] []
    ["src/m/index.ts".toList] "src/m.ts".toList (by decide) (by decide +kernel) (by decide +kernel)).resolve_left
    (by decide +kernel)

/-- `..` written below the directory `x.JS` waits at a target that the file answering it does not offer. -/
theorem created_file_reasks_directory : relativeAddress "..".toList "x.JS/y/m.ts".toList = some "x.JS".toList ∧
    grammarFor "x.ts".toList = true ∧ ∃ existence : List WireText, "x.ts".toList ∉ existence ∧
      resolveRelative existence "..".toList "x.JS/y/m.ts".toList = none ∧
      resolveRelative ("x.ts".toList :: existence) "..".toList "x.JS/y/m.ts".toList = some "x.ts".toList ∧
      "x.JS".toList ∉ sourceChanged [] [] ("x.ts".toList :: existence) "x.ts".toList :=
  ⟨by decide +kernel, by decide +kernel, ["x.JS/y/m.ts".toList], by decide +kernel⟩

end TsResolve

end GMesh
