import Mathlib.Data.List.DropRight
import Mathlib.Data.List.Infix
import GMesh.Rows

namespace GMesh

abbrev Line := List Char

variable (l : Line)

namespace Line

/-- The characters with the Unicode property `White_Space`. -/
def isWhiteSpace (c : Char) : Bool :=
  let n := c.toNat
  (9 ≤ n && n ≤ 13) || n == 0x20 || n == 0x85 || n == 0xa0 || n == 0x1680 || (0x2000 ≤ n && n ≤ 0x200a) ||
    n == 0x2028 || n == 0x2029 || n == 0x202f || n == 0x205f || n == 0x3000

def trimStart : Line := l.dropWhile isWhiteSpace

def trimEnd : Line := l.rdropWhile isWhiteSpace

def trim : Line := l.trimStart.trimEnd

def startsWith (head : String) : Bool := head.toList.isPrefixOf l

def endsWith (tail : String) : Bool := tail.toList.isSuffixOf l

def isBlank : Bool := l.trim.isEmpty

def strip? (head : String) : Option Line :=
  if l.startsWith head then some (l.drop head.toList.length) else none

def lowercase : Line := l.map Char.toLower

/-- The line that a line feed ends, read backwards, without a carriage return before it. -/
def ended : Line → Line
  | '\r' :: back => back.reverse
  | back => back.reverse

def linesFrom (back : Line) : Line → List Line
  | [] => if back.isEmpty then [] else [back.reverse]
  | c :: rest => if c = '\n' then ended back :: linesFrom [] rest else linesFrom (c :: back) rest

def lines (text : Line) : List Line := linesFrom [] text

def joinWith (between : String) (parts : List Line) : Line := between.toList.intercalate parts

end Line

namespace EmbedText

def shortParagraphChars : Nat := 200

def droppedSections : List String :=
  ["arguments", "args", "parameters", "params", "returns", "return", "errors", "panics", "raises", "throws", "yields",
    "examples", "example", "usage"]

def signatureKeywords : List String :=
  ["pub", "crate", "super", "in", "fn", "mod", "const", "static", "struct", "enum", "func", "def", "async", "let",
    "export", "self", "mut", "var", "type", "impl", "unsafe", "extern"]

def headingLevel : Option Nat :=
  let level := (l.takeWhile (· == '#')).length
  let rest : Line := l.drop level
  if 1 ≤ level ∧ level ≤ 6 ∧ rest.startsWith " " = true ∧ rest.isBlank = false then some level else none

def headingText : Line := Line.trim (l.dropWhile (· == '#'))

def isDroppedName (name : Line) : Bool :=
  droppedSections.any fun s => s.toList == (Line.trim (name.trim.rdropWhile (· == ':'))).lowercase

/-- A dropped section's name alone on its line, before a colon. -/
def isLabelLine : Bool := l.trim.endsWith ":" && isDroppedName l.trim

def isListItem : Bool :=
  let t := l.trimStart
  let digits := t.takeWhile Char.isDigit
  let rest : Line := t.drop digits.length
  t.startsWith "- " || t.startsWith "* " || t.startsWith "+ " ||
    (!digits.isEmpty && (rest.startsWith ". " || rest.startsWith ") "))

def isCode (block : List Line) : Bool :=
  let first := block.headD []
  first.trimStart.startsWith ">>>" ||
    (!isListItem first && (block.filter (!·.isBlank)).all fun l => l.startsWith "\t" || l.startsWith "    ")

def isTagLine : Bool :=
  match l.trimStart with
  | '@' :: c :: _ => c.isAlpha
  | ':' :: rest =>
    let name := rest.takeWhile Char.isAlpha
    !name.isEmpty && (rest.drop name.length).contains ':'
  | _ => false

def splitReference : Line → Option (Line × Line)
  | [] => none
  | c :: rest =>
    match rest with
    | [] => none
    | next :: target =>
      if c = ']' ∧ next = ':' then some ([], target)
      else (splitReference (next :: target)).map fun parts => (c :: parts.1, parts.2)

def isUrl : Bool := (l.startsWith "https://" || l.startsWith "http://") && !l.any Line.isWhiteSpace

def unbracketed : Line :=
  match l.strip? "<" with
  | some inner => if inner.endsWith ">" then inner.dropLast else l
  | none => l

def isLinkOnly : Bool :=
  let t := l.trim
  match if t.startsWith "[" then splitReference t else none with
  | some (label, target) => decide (1 < label.length) && !target.trim.isEmpty && !target.trim.any Line.isWhiteSpace
  | none => isUrl (unbracketed (Line.trim (((t.strip? "See:").or (t.strip? "See ")).getD t)))

def fenceMarkers : List String := ["```", "~~~"]

def pushed (current : List Line) : List (List Line) := if current.isEmpty then [] else [current]

/-- The paragraphs of a doc comment without fenced code. A heading is one of its own. -/
def paragraphsFrom (fence : Option String) (current : List Line) : List Line → List (List Line)
  | [] => pushed current
  | l :: rest =>
    match fence with
    | some marker => paragraphsFrom (if l.trimStart.startsWith marker then none else fence) current rest
    | none =>
      match fenceMarkers.find? (l.trimStart.startsWith ·) with
      | some marker => pushed current ++ paragraphsFrom (some marker) [] rest
      | none =>
        if (headingLevel l).isSome then pushed current ++ [l] :: paragraphsFrom none [] rest
        else if l.isBlank then pushed current ++ paragraphsFrom none [] rest
        else paragraphsFrom none (current ++ [l]) rest

def paragraphs (doc : Line) : List (List Line) := paragraphsFrom none [] doc.lines

def proseOf (block : List Line) : Line :=
  (Line.joinWith "\n" ((block.takeWhile (!isTagLine ·)).filter (!isLinkOnly ·))).trim

/-- The paragraphs kept, with the level of the heading whose section is skipped. -/
def kept (skipping : Option Nat) (haveSummary : Bool) : List (List Line) → List Line
  | [] => []
  | block :: rest =>
    let first := block.headD []
    match headingLevel first with
    | some level =>
      if skipping.any (· < level) then kept skipping haveSummary rest
      else if isDroppedName (headingText first) then kept (some level) haveSummary rest
      else first.trim :: kept none haveSummary rest
    | none =>
      if skipping.isSome || isLabelLine first || isCode block then kept skipping haveSummary rest
      else if (proseOf block).isEmpty then kept skipping haveSummary rest
      else if !haveSummary || decide ((proseOf block).length ≤ shortParagraphChars) then
        proseOf block :: kept skipping true rest
      else kept skipping true rest

def structuredDoc (doc : Line) : Line := Line.joinWith "\n\n" (kept none false (paragraphs doc.trim))

def fullText (doc signature : Option Line) : Option Line :=
  match (doc.map Line.trim).filter (!·.isEmpty), (signature.map Line.trim).filter (!·.isEmpty) with
  | some doc, some signature => some (doc ++ "\n\n".toList ++ signature)
  | some doc, none => some doc
  | none, some signature => some signature
  | none, none => none

def textToEmbed (doc signature : Option Line) : Option Line :=
  (fullText (doc.map structuredDoc) signature).or (fullText doc signature)

/-- The words of letters, digits and underscores that start with no digit, read backwards. -/
def identifiersFrom (word : Line) : Line → List Line
  | [] => if word.isEmpty then [] else [word.reverse]
  | c :: rest =>
    if c.isAlpha || c == '_' || (!word.isEmpty && c.isDigit) then identifiersFrom (c :: word) rest
    else (if word.isEmpty then [] else [word.reverse]) ++ identifiersFrom [] rest

/-- How many identifiers of a signature are no keywords. The count stops at two. -/
def signatureIdentifiers (signature : Line) : Nat :=
  min 2 ((identifiersFrom [] signature).countP fun word => !signatureKeywords.any (·.toList == word.lowercase))

def testDirs : List String := ["test", "tests", "__tests__", "testdata"]

def scriptExtensions : List String := ["js", "jsx", "ts", "tsx"]

def isTestPath (path : Line) : Bool :=
  let parts := path.splitOn '/'
  let file : Line := parts.getLastD []
  parts.dropLast.any (fun dir => testDirs.any (·.toList == dir)) ||
    file.endsWith "_test.go" || file.endsWith "_test.rs" || file.endsWith "_tests.rs" ||
    (file.startsWith "test_" && file.endsWith ".py") ||
    scriptExtensions.any fun ext => file.endsWith (".test." ++ ext) || file.endsWith (".spec." ++ ext)

end EmbedText

variable (n : NodeRow)

namespace NodeRow

def isTest : Bool :=
  EmbedText.isTestPath n.filePath.toList || Line.startsWith n.name.toList "test" ||
    Line.startsWith n.name.toList "Test" || decide ("::tests::".toList <:+: n.qualifiedName.toList) ||
    Line.startsWith n.qualifiedName.toList "tests::"

/-- A module or a test with a blank doc comment and a signature that names only the node. -/
def isNoise : Bool :=
  !n.docComment.any (fun doc => !Line.isBlank doc.toList) &&
    n.signature.any (fun s => !Line.isBlank s.toList && decide (EmbedText.signatureIdentifiers s.toList ≤ 1)) &&
    (n.kind == .module || n.isTest)

def isFiltered : Bool := n.generated || n.isNoise

def nodeText : Option Line :=
  if n.isFiltered then none
  else EmbedText.textToEmbed (n.docComment.map String.toList) (n.signature.map String.toList)

def isBare : Bool :=
  n.docComment.all (fun doc => Line.isBlank doc.toList) && n.signature.all (fun s => Line.isBlank s.toList)

end NodeRow

variable {signature doc : Option Line}

namespace EmbedText

theorem structuredDoc_of_isBlank {doc : Line} (h : doc.isBlank) : structuredDoc doc = [] := by
  have htrim : doc.trim = [] := by simpa [Line.isBlank] using h
  simp [structuredDoc, htrim, paragraphs, Line.lines, Line.linesFrom, paragraphsFrom, pushed, kept, Line.joinWith]

theorem fullText_eq_none_iff : fullText doc signature = none ↔ doc.all Line.isBlank ∧ signature.all Line.isBlank := by
  have hfilter : ∀ part : Option Line, (part.map Line.trim).filter (!·.isEmpty) = none ↔ part.all Line.isBlank := by
    intro part
    cases part with
    | none => simp
    | some l => simp [Option.filter_some, Line.isBlank]
  rw [← hfilter doc, ← hfilter signature]
  unfold fullText
  split
  next hd hs => simp [hd]
  next hd hs => simp [hd]
  next hd hs => simp [hs]
  next hd hs => simp [hd, hs]

/-- Trimming a doc comment never changes whether a node has a text. -/
theorem textToEmbed_eq_none_iff : textToEmbed doc signature = none ↔ fullText doc signature = none := by
  unfold textToEmbed
  rw [Option.or_eq_none_iff]
  refine ⟨And.right, fun h => ⟨?_, h⟩⟩
  obtain ⟨hdoc, hsig⟩ := fullText_eq_none_iff.mp h
  refine fullText_eq_none_iff.mpr ⟨?_, hsig⟩
  cases doc with
  | none => rfl
  | some doc => simp [structuredDoc_of_isBlank (by simpa using hdoc), Line.isBlank, Line.trim, Line.trimStart, Line.trimEnd]

example : textToEmbed (some "Sorts rows.\n\n# Arguments\n\nThe rows.".toList) (some "fn sort(rows: Rows)".toList) =
    some "Sorts rows.\n\nfn sort(rows: Rows)".toList := by decide +kernel

end EmbedText

theorem NodeRow.nodeText_eq_none_iff {n : NodeRow} : n.nodeText = none ↔ n.isFiltered ∨ n.isBare := by
  unfold nodeText
  split
  next h => simp [h]
  next h =>
    rw [EmbedText.textToEmbed_eq_none_iff, EmbedText.fullText_eq_none_iff]
    simp [h, isBare, Option.all_map]

end GMesh
