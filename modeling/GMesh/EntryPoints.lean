import GMesh.ResolutionDelta
import GMesh.TextSplits
import Mathlib.Data.List.Infix
import Mathlib.Data.List.Sort
import Mathlib.Data.Prod.Lex

namespace GMesh

open List

inductive LikeToken
  | any | one | char (c : Char)

def likeToken (c : Char) : LikeToken := if c = '%' then .any else if c = '_' then .one else .char c

/-- The pieces of a pattern with `ESCAPE '\'`. -/
def escapedTokens : List Char → List LikeToken
  | '\\' :: c :: rest => .char c :: escapedTokens rest
  | c :: rest => likeToken c :: escapedTokens rest
  | [] => []

/-- LIKE: letters of both cases are one. -/
def likeMatches : List LikeToken → List Char → Bool
  | [], text => text.isEmpty
  | .any :: rest, text => text.tails.any (likeMatches rest)
  | .one :: rest, text => !text.isEmpty && likeMatches rest text.tail
  | .char p :: rest, text => text.head?.any (fun c => p.toLower == c.toLower) && likeMatches rest text.tail

def escapeLike (entry : List Char) : List Char :=
  entry.flatMap fun c => if c = '\\' ∨ c = '%' ∨ c = '_' then ['\\', c] else [c]

/-- One clause of the rank: an entry with a dot is the file's name, another one its stem. -/
def rankClause (path entry : List Char) : Bool :=
  if '.' ∈ entry then path == entry || likeMatches (escapedTokens (['%', '/'] ++ escapeLike entry)) path
  else likeMatches (escapedTokens (escapeLike entry ++ ['.', '%'])) path ||
    likeMatches (escapedTokens (['%', '/'] ++ (escapeLike entry ++ ['.', '%']))) path

variable (nodes : List NodeRow) (entries : List WireText) (requested : WireText)

def entryPointRank (n : NodeRow) : Bool :=
  entries.any (rankClause n.filePath.toList)

/-- Candidates are ordered by this: ranked ones first, then the shortest path. -/
def candidateKey (n : NodeRow) : Bool ×ₗ Nat :=
  toLex (!entryPointRank entries n, n.filePath.length)

def trimSlashes (path : List Char) : List Char := path.rdropWhile (· = '/')

def likeUnder (n : NodeRow) : Bool :=
  trimSlashes requested != [] && n.kind == .file &&
    likeMatches ((trimSlashes requested ++ ['/', '%']).map likeToken) n.filePath.toList

def candidatesUnder : List NodeRow :=
  (nodes.filter (likeUnder requested)).insertionSort fun m n => candidateKey entries m ≤ candidateKey entries n

def findFilesUnder (limit : Nat) : List NodeRow := (candidatesUnder nodes entries requested).take limit

def isEntryPoint (n : NodeRow) : Bool :=
  let name := (rsplitOnce '/' n.filePath.toList).elim n.filePath.toList Prod.snd
  entries.any fun entry => if '.' ∈ entry then name == entry else (entry ++ ['.']).isPrefixOf name

def soleEntryPoint : List NodeRow → Option NodeRow
  | [] => none
  | first :: rest =>
    if isEntryPoint entries first && !rest.head?.any (isEntryPoint entries) then some first else none

def entryPointCandidates : Nat := 5

def entryPointUnder : Option NodeRow :=
  soleEntryPoint entries (findFilesUnder nodes entries requested entryPointCandidates)

/-- The file's path goes on, as written, below the requested one. -/
def Below (n : NodeRow) : Prop :=
  n.kind = .file ∧ trimSlashes requested ++ ['/'] <+: n.filePath.toList

def SoleEntryPoint (f : NodeRow) : Prop :=
  f ∈ nodes ∧ Below requested f ∧ isEntryPoint entries f = true ∧
    ∀ g ∈ nodes, Below requested g → isEntryPoint entries g = true → g = f

/-- What the files of an index have to satisfy: no entry point is only taken to be below the path, and what is only
ranked as an entry point has a longer path than every one. -/
structure PlainlyNamed (files : Set NodeRow) : Prop where
  below : ∀ n ∈ files, likeUnder requested n = true → isEntryPoint entries n = true → Below requested n
  ranked : ∀ n ∈ files, likeUnder requested n = true → entryPointRank entries n = true →
    isEntryPoint entries n = false → ∀ f ∈ files, Below requested f → isEntryPoint entries f = true →
      f.filePath.length < n.filePath.length
  named : ∀ n ∈ files, Below requested n → isEntryPoint entries n = true → trimSlashes requested ≠ []

variable {nodes entries requested} {p q : List LikeToken} {s t entry : WireText} {files : Set NodeRow} {f n : NodeRow}

theorem likeMatches_append (hs : likeMatches p s) (ht : likeMatches q t) : likeMatches (p ++ q) (s ++ t) := by
  induction p generalizing s with
  | nil =>
    obtain rfl : s = [] := by simpa [likeMatches] using hs
    exact ht
  | cons token _ ih =>
    cases token with
    | any =>
      obtain ⟨u, hu, hmatch⟩ := any_eq_true.mp hs
      obtain ⟨front, rfl⟩ := (mem_tails u s).mp hu
      refine any_eq_true.mpr ⟨u ++ t, (mem_tails _ _).mpr ⟨front, ?_⟩, ih hmatch⟩
      rw [append_assoc]
    | one | char =>
      cases s with
      | nil => simp [likeMatches] at hs
      | cons c s =>
        simp only [likeMatches, tail_cons, Bool.and_eq_true] at hs
        simp only [cons_append, likeMatches, tail_cons, Bool.and_eq_true]
        exact ⟨hs.1, ih hs.2⟩

theorem likeMatches_any : likeMatches [.any] t := by
  refine any_eq_true.mpr ⟨[], (mem_tails [] t).mpr ⟨t, append_nil t⟩, rfl⟩

theorem likeMatches_char : likeMatches (t.map .char) t := by
  induction t with
  | nil => rfl
  | cons _ _ ih => simpa [likeMatches] using ih

theorem likeMatches_self : likeMatches (t.map likeToken) t := by
  induction t with
  | nil => rfl
  | cons c _ ih =>
    have hone : likeMatches [likeToken c] [c] := by
      unfold likeToken
      split
      next => exact likeMatches_any
      next => split <;> simp [likeMatches]
    exact likeMatches_append hone ih

theorem escapedTokens_escapeLike : escapedTokens (escapeLike entry ++ t) = entry.map .char ++ escapedTokens t := by
  induction entry with
  | nil => rfl
  | cons c entry ih =>
    have hcons : escapeLike (c :: entry) = (if c = '\\' ∨ c = '%' ∨ c = '_' then ['\\', c] else [c]) ++
      escapeLike entry := rfl
    rw [hcons, append_assoc]
    split
    next => simp [escapedTokens, ih]
    next hplain =>
      obtain ⟨hslash, hpercent, hone⟩ := not_or.mp hplain |>.imp_right not_or.mp
      simp [escapedTokens, hslash, likeToken, hpercent, hone, ih]

theorem likeMatches_inDirectory {pattern front : List Char} (h : likeMatches (escapedTokens pattern) t) :
    likeMatches (escapedTokens (['%', '/'] ++ pattern)) (front ++ '/' :: t) :=
  likeMatches_append (p := [.any]) likeMatches_any (likeMatches_append (p := [.char '/']) (s := ['/']) rfl h)

theorem rank_of_entryPoint (h : isEntryPoint entries n) : entryPointRank entries n := by
  obtain ⟨entry, hentry, hname⟩ := any_eq_true.mp h
  refine any_eq_true.mpr ⟨entry, hentry, ?_⟩
  unfold rankClause
  split at hname
  next hdot =>
    have hexact : likeMatches (escapedTokens (escapeLike entry)) entry := by
      rw [← append_nil (escapeLike entry), escapedTokens_escapeLike, escapedTokens, append_nil]
      exact likeMatches_char
    rw [if_pos hdot, Bool.or_eq_true]
    cases hpath : rsplitOnce '/' n.filePath.toList with
    | none => exact .inl (by simpa [hpath] using hname)
    | some parts =>
      have hname : parts.2 = entry := by simpa [hpath] using hname
      rw [rsplitOnce_some hpath, hname]
      exact .inr (likeMatches_inDirectory hexact)
  next hdot =>
    have hstem (rest : WireText) :
        likeMatches (escapedTokens (escapeLike entry ++ ['.', '%'])) (entry ++ ['.'] ++ rest) := by
      rw [escapedTokens_escapeLike, append_assoc]
      have htail := likeMatches_append (p := [.char '.']) (s := ['.']) rfl (@likeMatches_any rest)
      exact likeMatches_append likeMatches_char htail
    obtain ⟨rest, hrest⟩ := isPrefixOf_iff_prefix.mp hname
    rw [if_neg hdot, Bool.or_eq_true]
    cases hpath : rsplitOnce '/' n.filePath.toList with
    | none =>
      rw [hpath, Option.elim_none] at hrest
      exact .inl (hrest ▸ hstem rest)
    | some parts =>
      rw [hpath, Option.elim_some] at hrest
      rw [rsplitOnce_some hpath, ← hrest]
      exact .inr (likeMatches_inDirectory (hstem rest))

theorem likeUnder_of_below (hrequested : trimSlashes requested ≠ []) (h : Below requested n) :
    likeUnder requested n := by
  obtain ⟨hkind, rest, hrest⟩ := h
  simp only [likeUnder, Bool.and_eq_true, bne_iff_ne, beq_iff_eq]
  refine ⟨⟨hrequested, hkind⟩, ?_⟩
  rw [← hrest, ← singleton_append, ← append_assoc, map_append]
  exact likeMatches_append likeMatches_self likeMatches_any

theorem mem_candidatesUnder : n ∈ candidatesUnder nodes entries requested ↔ n ∈ nodes ∧ likeUnder requested n := by
  rw [candidatesUnder, mem_insertionSort, List.mem_filter]

theorem entryPointUnder_eq_some : entryPointUnder nodes entries requested = some f ↔
    ∃ rest, candidatesUnder nodes entries requested = f :: rest ∧ isEntryPoint entries f ∧
      ∀ g ∈ rest.head?, isEntryPoint entries g = false := by
  unfold entryPointUnder findFilesUnder entryPointCandidates
  cases candidatesUnder nodes entries requested with
  | nil => simp [soleEntryPoint]
  | cons first rest =>
    cases rest with
    | nil => simp [soleEntryPoint]; grind
    | cons second rest => simp [soleEntryPoint]; grind

theorem ranked_before {m : NodeRow} (h : candidateKey entries m ≤ candidateKey entries n)
    (hn : entryPointRank entries n) :
    entryPointRank entries m ∧ m.filePath.length ≤ n.filePath.length := by
  rcases Prod.Lex.toLex_le_toLex.mp h with hrank | ⟨hrank, hlength⟩
  · simp [hn, Bool.lt_iff] at hrank
  · exact ⟨by simpa [hn] using hrank, hlength⟩

/-- Among plainly named files the query finds the sole entry point, and nothing without one. -/
theorem entryPointUnder_of_plain (hplain : PlainlyNamed entries requested files) (hnodup : nodes.Nodup)
    (hfiles : ∀ n ∈ nodes, n ∈ files) :
    entryPointUnder nodes entries requested = some f ↔ SoleEntryPoint nodes entries requested f := by
  have hsorted : (candidatesUnder nodes entries requested).Pairwise fun m n =>
    candidateKey entries m ≤ candidateKey entries n := pairwise_insertionSort _ _
  have hdistinct : (candidatesUnder nodes entries requested).Nodup :=
    (perm_insertionSort _ _).nodup_iff.mpr (hnodup.filter _)
  have hmem : ∀ {g}, g ∈ nodes → Below requested g → isEntryPoint entries g →
      g ∈ candidatesUnder nodes entries requested := by
    intro g hg hbelow hentry
    exact mem_candidatesUnder.mpr ⟨hg, likeUnder_of_below (hplain.named g (hfiles g hg) hbelow hentry) hbelow⟩
  -- whatever comes before an entry point is one itself
  have hbefore : ∀ {m g}, m ∈ candidatesUnder nodes entries requested → g ∈ nodes → Below requested g →
      isEntryPoint entries g → candidateKey entries m ≤ candidateKey entries g →
      isEntryPoint entries m := by
    intro m g hm hg hbelow hentry hle
    obtain ⟨hm, hunder⟩ := mem_candidatesUnder.mp hm
    obtain ⟨hranked, hlength⟩ := ranked_before hle (rank_of_entryPoint hentry)
    by_contra hnot
    have hlonger := hplain.ranked m (hfiles m hm) hunder hranked (Bool.eq_false_iff.mpr hnot) g (hfiles g hg) hbelow
      hentry
    omega
  rw [entryPointUnder_eq_some]
  constructor
  · rintro ⟨rest, hlist, hentry, hsecond⟩
    rw [hlist] at hsorted hmem hbefore
    obtain ⟨hf, hunder⟩ := mem_candidatesUnder.mp (hlist ▸ mem_cons_self)
    refine ⟨hf, hplain.below f (hfiles f hf) hunder hentry, hentry, ?_⟩
    intro g hg hbelow hgentry
    rcases mem_cons.mp (hmem hg hbelow hgentry) with rfl | hrest
    · rfl
    · obtain ⟨second, rest, rfl⟩ := exists_cons_of_ne_nil (ne_nil_of_mem hrest)
      have hle : candidateKey entries second ≤ candidateKey entries g := by
        rcases mem_cons.mp hrest with rfl | hrest
        · exact le_rfl
        · exact rel_of_pairwise_cons (pairwise_cons.mp hsorted).2 hrest
      have hother := hbefore (by simp) hg hbelow hgentry hle
      simp [hsecond second rfl] at hother
  · rintro ⟨hf, hbelow, hentry, hsole⟩
    have hentries : ∀ {m}, m ∈ candidatesUnder nodes entries requested → isEntryPoint entries m → m = f := by
      intro m hm hmentry
      obtain ⟨hm, hunder⟩ := mem_candidatesUnder.mp hm
      exact hsole m hm (hplain.below m (hfiles m hm) hunder hmentry) hmentry
    have hcandidate := hmem hf hbelow hentry
    obtain ⟨first, rest, hlist⟩ := exists_cons_of_ne_nil (ne_nil_of_mem hcandidate)
    rw [hlist] at hcandidate hsorted hdistinct hentries hbefore
    have hfirst : first = f := by
      rcases mem_cons.mp hcandidate with rfl | hrest
      · rfl
      · exact hentries (by simp) (hbefore (by simp) hf hbelow hentry (rel_of_pairwise_cons hsorted hrest))
    subst hfirst
    refine ⟨rest, hlist, hentry, ?_⟩
    intro g hg
    by_contra hgentry
    have hgrest : g ∈ rest := mem_of_mem_head? hg
    obtain rfl := hentries (mem_cons_of_mem _ hgrest) (Bool.eq_true_of_not_eq_false hgentry)
    exact (nodup_cons.mp hdistinct).1 hgrest

/-- The prefix step finds the only entry point below every requested path, and nothing else, exactly on files that are
plainly named. -/
theorem entry_point_prefix_iff (files : Set NodeRow) (entries : List WireText) (requested : List Char) :
    (∀ nodes : List NodeRow, nodes.Nodup → (∀ n ∈ nodes, n ∈ files) → ∀ f,
      entryPointUnder nodes entries requested = some f ↔ SoleEntryPoint nodes entries requested f) ↔
    PlainlyNamed entries requested files := by
  refine ⟨fun h => ⟨?_, ?_, ?_⟩, fun hplain nodes hnodup hfiles f => entryPointUnder_of_plain hplain hnodup hfiles⟩
  · intro n hn hunder hentry
    have hfound : entryPointUnder [n] entries requested = some n := by
      refine entryPointUnder_eq_some.mpr ⟨[], ?_, hentry, by simp⟩
      simp [candidatesUnder, hunder]
    exact ((h [n] (nodup_singleton n) (by simpa using hn) n).mp hfound).2.1
  · intro n hn hunder hranked hnot f hf hbelow hentry
    by_contra hlength
    have hne : n ≠ f := by
      rintro rfl
      simp [hentry] at hnot
    have hsole : SoleEntryPoint [n, f] entries requested f := by
      refine ⟨by simp, hbelow, hentry, ?_⟩
      intro g hg _ hgentry
      rcases mem_pair.mp hg with rfl | rfl
      · simp [hgentry] at hnot
      · rfl
    have hfound := (h [n, f] (by simpa using hne) (by simp [hn, hf]) f).mpr hsole
    obtain ⟨rest, hlist, -⟩ := entryPointUnder_eq_some.mp hfound
    have hfunder : likeUnder requested f = true := (mem_candidatesUnder.mp (hlist ▸ mem_cons_self)).2
    have hle : candidateKey entries n ≤ candidateKey entries f := by
      refine Prod.Lex.toLex_le_toLex.mpr (.inr ⟨?_, by dsimp only; omega⟩)
      rw [hranked, rank_of_entryPoint hentry]
    simp [candidatesUnder, hunder, hfunder, hle, hne] at hlist
  · intro n hn hbelow hentry hnil
    have hfound := (h [n] (nodup_singleton n) (by simpa using hn) n).mpr
      ⟨by simp, hbelow, hentry, fun g hg _ _ => mem_singleton.mp hg⟩
    obtain ⟨rest, hlist, -⟩ := entryPointUnder_eq_some.mp hfound
    simp [candidatesUnder, likeUnder, hnil] at hlist

/-- `pkg_a` is taken to name the package in `pkg-a`. -/
theorem entry_point_prefix_underscore :
    ∃ f : NodeRow, entryPointUnder [f] ["index".toList] "pkg_a".toList = some f ∧ ¬Below "pkg_a".toList f :=
  ⟨{ id := "f", kind := .file, filePath := "pkg-a/index.ts" }, by decide +kernel, by unfold Below; decide +kernel⟩

end GMesh
