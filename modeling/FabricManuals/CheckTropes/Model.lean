import FabricManuals.Lib.Backtrack
import FabricManuals.Lib.TextFile

/-! # The tropes gate, `scripts/check_tropes.sh`

The gate lists the tracked Markdown files, greps each for the patterns of nine rule
groups and has awk count its em-dashes.  A pattern is one of three forms: it may match
anywhere in a line, it opens a sentence, or it opens a list item.  Both tools read
files line by line, and grep prints no line of what it takes for binary. -/
set_option autoImplicit false

namespace CheckTropes

open TextFile Backtrack

/-- What the locale of the run decides for both tools, with the ASCII part fixed:
`[[:space:]]`, the words of `\b`, a range in brackets, and the case variants of a
character. -/
structure Locale where
  space : Char → Bool
  word : Char → Bool
  range : Char → Char → Char → Bool
  variants : Char → List Char
  space_ascii : ∀ c : Char, c.toNat < 128 → space c = (c == ' ' || (9 ≤ c.toNat && c.toNat ≤ 13))
  word_ascii : ∀ c : Char, c.toNat < 128 → word c = (isAlnum c || c == '_')
  range_ascii : ∀ lo hi c : Char, lo.toNat < 128 → hi.toNat < 128 → c.toNat < 128 →
    range lo hi c = (lo ≤ c && c ≤ hi)
  variants_ascii : ∀ c v : Char, c.toNat < 128 → v.toNat < 128 →
    (v ∈ variants c ↔ v = c.toLower ∨ v = c.toUpper)

def wordChar (c : Char) : Bool := isAlnum c || c == '_'

/-- Only ASCII has spaces, words and case. -/
def Locale.posix : Locale where
  space c := c == ' ' || (9 ≤ c.toNat && c.toNat ≤ 13)
  word := wordChar
  range lo hi c := lo ≤ c && c ≤ hi
  variants c := [c.toLower, c.toUpper]
  space_ascii _ _ := rfl
  word_ascii _ _ := rfl
  range_ascii _ _ _ _ _ _ := rfl
  variants_ascii _ _ _ _ := List.mem_pair

/-- `^[[:space:]]*([-*+]|[0-9]+\.)`, in front of a list item. -/
def itemMark (L : Locale) : Regex Char :=
  concat [bos, .star true (.set L.space),
    .alt (.set fun c => c == '-' || c == '*' || c == '+')
      (.seq (plus true (.set (L.range '0' '9'))) (lit ".".toList))]

inductive Rule
  /-- Anywhere in a line. -/
  | free (r : Regex Char)
  /-- Behind `(^|[.!?][[:space:]])`. -/
  | opening (r : Regex Char)
  /-- Behind `^[[:space:]]*([-*+]|[0-9]+\.)[[:space:]]+`. -/
  | item (r : Regex Char)

def stop (c : Char) : Bool := c == '.' || c == '!' || c == '?'

def Rule.regex (L : Locale) : Rule → Regex Char
  | .free r => r
  | .opening r => .seq (.alt bos (.seq (.set stop) (.set L.space))) r
  | .item r => concat [itemMark L, plus true (.set L.space), r]

section Patterns
variable (L : Locale)

def ci (w : Str) : Regex Char := concat (w.map fun c => .set fun a => (L.variants a).contains c)

def ciRange (lo hi : Char) : Regex Char := .set fun a => (L.variants a).any (L.range lo hi)

def gap : Regex Char := plus true (.set L.space)

def edge : Regex Char := wordBoundary L.word

def anyOf : List (Regex Char) → Regex Char
  | [] => .set fun _ => false
  | [r] => r
  | r :: rest => .alt r (anyOf rest)

def ciAny (ws : List String) : Regex Char := anyOf (ws.map fun w => ci L w.toList)

def opt (r : Regex Char) : Regex Char := .alt r .eps

def atMost : Nat → Regex Char → Regex Char
  | 0, _ => .eps
  | n + 1, r => opt (.seq r (atMost n r))

def upToN (n : Nat) (r : Regex Char) : Regex Char := .seq r (atMost (n - 1) r)

def ciQuoted (before after : String) : Regex Char :=
  concat [ci L before.toList, opt (ci L "'".toList), ci L after.toList]

def inSentence (n : Nat) : Regex Char := upToN n (.set fun c => !stop c)

def parallelism : List Rule :=
  [.free (concat [anyOf [ciQuoted L "it" "s", ciQuoted L "that" "s", ci L "this is".toList,
      ciQuoted L "here" "s"], gap L, ci L "not".toList, gap L, inSentence 80, .set L.space,
      ciQuoted L "it" "s", .set L.space]),
    .free (concat [edge L, ci L "not".toList, gap L, ciAny L ["just", "only", "merely", "simply"],
      gap L, inSentence 80, .set L.space, ciAny L ["but", "rather"], edge L]),
    .free (concat [edge L, ci L "not".toList, gap L, ci L "because".toList, gap L, inSentence 80,
      .set L.space, ci L "but".toList, edge L]),
    .free (concat [edge L, ci L "the".toList, gap L,
      ciAny L ["question", "point", "issue", "goal", "problem"], gap L, ciQuoted L "isn" "t", edge L]),
    .free (concat [edge L, ci L "not".toList, gap L, upToN 80 (.set fun c => !stop c && c != '—'),
      lit "—".toList, .star true (.set L.space),
      anyOf [ciQuoted L "it" "s", ci L "but".toList, ci L "rather".toList], edge L])]

def noStar : Regex Char := .set fun c => c != '*'

def boldList : List Rule :=
  [.item (concat [lit "**".toList, plus true noStar, lit "**".toList, .star true (.set L.space),
      .set fun c => c == ':' || c == '.']),
    .item (concat [lit "**".toList, .star true noStar, .set fun c => c == ':' || c == '.',
      lit "**".toList]),
    .item (concat [lit "**".toList, plus true noStar, lit "**".toList, .star true (.set L.space),
      anyOf [lit "—".toList, lit "–".toList, lit "--".toList]])]

def servesAs : List Rule :=
  [.free (concat [edge L, ci L "serves as ".toList, ciAny L ["a", "an", "the"], edge L]),
    .free (concat [edge L, ci L "stands as ".toList, ciAny L ["a", "an", "the"], edge L])]

def fragments : List Rule :=
  [.free (concat [edge L, lit "Not ".toList, inSentence 50, lit ".".toList, gap L, lit "Not ".toList,
      inSentence 50, lit ".".toList]),
    .opening (concat [lit "The ".toList, inSentence 40, lit "?".toList, gap L, .set (L.range 'A' 'Z')])]

def tone : List Rule :=
  [.free (concat [ciQuoted L "here" "s ",
      anyOf [ci L "the thing".toList, ci L "the kicker".toList, ci L "where it gets".toList,
        concat [ci L "what ".toList, ciAny L ["most people", "nobody", "few people"]]]]),
    .free (concat [edge L, ciQuoted L "let" "s ",
      anyOf [ci L "unpack".toList, ci L "dive in".toList, ci L "dive into".toList,
        ci L "explore".toList,
        concat [ci L "break ".toList, ciAny L ["this", "it"], ci L " down".toList]], edge L]),
    .free (concat [edge L, ci L "think of it ".toList, ciAny L ["as", "like"], ci L " ".toList,
      ciAny L ["a", "an"], edge L]),
    .free (concat [edge L, ci L "imagine a world where".toList, edge L]),
    .free (concat [edge L, ci L "the ".toList, ciAny L ["simple truth", "truth is simple"], edge L])]

def attribution : List Rule :=
  [.free (concat [edge L, ciAny L ["experts", "researchers", "analysts", "observers", "critics"],
      ci L " ".toList,
      ciAny L ["say", "argue", "agree", "believe", "suggest", "note", "contend"], edge L]),
    .free (concat [edge L, ciAny L ["studies", "reports", "research"], ci L " ".toList,
      ciAny L ["show", "shows", "suggest", "suggests", "indicate", "indicates"],
      ci L " that".toList, edge L])]

def signpost : List Rule :=
  [.opening (concat [ciAny L ["in conclusion", "to sum up", "in summary", "to summarize"], edge L]),
    .free (concat [edge L, ci L "despite its ".toList,
      ciAny L ["challenges", "limitations", "drawbacks", "flaws", "complexity"], edge L])]

/-- `[A-Za-z]`, ignoring case. -/
def ciLetter : Regex Char :=
  .set fun a => (L.variants a).any fun v => L.range 'A' 'Z' v || L.range 'a' 'z' v

def falseRange : List Rule :=
  [.opening (concat [ci L "from ".toList, plus true (ciLetter L), ci L " to ".toList,
      plus true (ciLetter L)]),
    .free (concat [edge L, ciAny L ["everything", "anything"], ci L " from ".toList,
      plus true (ciRange L 'a' 'z'), ci L " to ".toList, plus true (ciRange L 'a' 'z')])]

def letters : Regex Char := .star true (ciRange L 'a' 'z')

def cliches : List Rule :=
  [.free (concat [edge L, ci L "delv".toList, ciAny L ["e", "es", "ing", "ed"], edge L]),
    .free (concat [edge L, ci L "tapestry".toList, edge L]),
    .free (concat [edge L, ci L "testament to".toList, edge L]),
    .free (concat [edge L, ci L "navigat".toList, letters L, ci L " the complexit".toList]),
    .free (concat [edge L, ci L "game".toList, opt (.set fun c => c == ' ' || c == '-'),
      ci L "changer".toList]),
    .free (concat [edge L, ci L "play".toList, opt (ci L "s".toList), ci L " a ".toList,
      ciAny L ["crucial", "vital", "pivotal", "key", "central"], ci L " role".toList]),
    .free (concat [edge L, ci L "in the realm of".toList, edge L]),
    .free (concat [edge L, ci L "unlock".toList, letters L, ci L " the ".toList,
      ciAny L ["power", "potential", "secret"]]),
    .free (concat [edge L, ci L "harness".toList, letters L, ci L " the power".toList]),
    .free (concat [edge L, ci L "ever-".toList,
      ciAny L ["evolving", "changing", "growing", "expanding"], edge L]),
    .free (concat [edge L, ci L "a wealth of".toList, edge L]),
    .free (ciQuoted L "it" "s worth noting"),
    .free (concat [edge L, ci L "it bears mentioning".toList, edge L]),
    .free (concat [edge L, ci L "needless to say".toList, edge L]),
    .free (concat [edge L, ci L "utiliz".toList, ciAny L ["e", "es", "ing", "ed"], edge L]),
    .free (concat [ciQuoted L "in today" "s ",
      atMost 25 (.set fun a => (L.variants a).any (L.range 'a' 'z') || a == ' ' || a == '-'),
      ciAny L ["paced", "world", "landscape", "age"]])]

def rules : List Rule :=
  parallelism L ++ boldList L ++ servesAs L ++ fragments L ++ tone L ++ attribution L ++ signpost L ++
    falseRange L ++ cliches L

def fires (rule : Rule) (line : Str) : Bool := (search (rule.regex L) line).isSome

def hasTell (line : Str) : Bool := (rules L).any fun rule => fires L rule line

def isFence (line : Str) : Bool := "```".toList.isPrefixOf line

/-- `/^[[:space:]]*#/`. -/
def isHeading (line : Str) : Bool :=
  (first (concat [bos, .star true (.set L.space), lit "#".toList]) [] line).isSome

/-- `/^[[:space:]]*([-*+]|[0-9]+\.)[[:space:]]/`. -/
def isItem (line : Str) : Bool :=
  (first (.seq (itemMark L) (.set L.space)) [] line).isSome

/-- The em-dashes of a prose line, less the separator of a list item. -/
def dashes (line : Str) : Nat :=
  if isItem L line then (line.erase '—').count '—' else line.count '—'

def awkLine (st : Bool × Nat) (line : Str) : Bool × Nat :=
  if isFence line then (!st.1, st.2)
  else if st.1 then st
  else if isHeading L line then st
  else (st.1, st.2 + dashes L line)

def emDashes (text : Str) : Nat := ((Lines.records '\n' text).foldl (awkLine L) (false, 0)).2

end Patterns

abbrev Name := List UInt8

def unusual (b : UInt8) : Bool := b < 0x20 || 0x7F ≤ b || b == 0x22 || b == 0x5C

def octal (b : UInt8) : List UInt8 := [0x30 + b / 64, 0x30 + b / 8 % 8, 0x30 + b % 8]

def escape (b : UInt8) : List UInt8 :=
  if unusual b then
    0x5C :: match b.toNat with
      | 7 => ascii "a".toList
      | 8 => ascii "b".toList
      | 9 => ascii "t".toList
      | 10 => ascii "n".toList
      | 11 => ascii "v".toList
      | 12 => ascii "f".toList
      | 13 => ascii "r".toList
      | 0x22 => [0x22]
      | 0x5C => [0x5C]
      | _ => octal b
  else [b]

def quotePath (name : Name) : Name :=
  if name.any unusual then 0x22 :: (name.flatMap escape ++ [0x22]) else name

def isNameStart (b : UInt8) : Bool :=
  (0x41 ≤ b && b ≤ 0x5A) || (0x61 ≤ b && b ≤ 0x7A) || b == 0x5F

def isNameByte (b : UInt8) : Bool := isNameStart b || (0x30 ≤ b && b ≤ 0x39)

/-- An operand that awk reads as `name=value`. -/
def isAssignment (operand : Name) : Bool :=
  match operand with
  | [] => false
  | b :: rest => isNameStart b && (rest.dropWhile isNameByte).head? == some 0x3D

/-- What a tool finds in a file: characters, and bytes that are part of none. -/
abbrev Contents := List (Option Char)

def nul : Char := Char.ofNat 0

/-- The tracked `*.md` and `*.qmd` files in the order of the listing, what a path of
the work tree opens to, what awk counts on its standard input where an operand names no
file, and how many lines of a file with a NUL grep is through with before it meets that. -/
structure Checkout where
  tracked : List Name
  work : Name → Option Contents
  stray : Name → Nat
  ahead : Contents → Nat
  present : ∀ name ∈ tracked, (work name).isSome = true

def files (c : Checkout) : List Name := c.tracked.map quotePath

section Gate
variable (L : Locale) (c : Checkout)

/-- The lines that grep prints if they match: none once it has met a NUL, and none with a
byte that is part of no character. -/
def printable (contents : Contents) : List Str :=
  let lines := Lines.records (some '\n') contents
  let read :=
    if some nul ∈ contents then
      (lines.takeWhile fun line => !line.contains (some nul)).take (c.ahead contents)
    else lines
  read.filterMap fun line => line.mapM id

def scan (file : Name) : Bool :=
  match c.work file with
  | some contents => (printable c contents).any (hasTell L)
  | none => false

/-- Such a byte is in no pattern of the em-dash pass, and neither is a NUL. -/
def awkText (contents : Contents) : Str := contents.map (·.getD nul)

def awkCount (file : Name) : Nat :=
  if isAssignment file then c.stray file
  else
    match c.work file with
    | some contents => emDashes L (awkText contents)
    | none => 0

def emDashMax : Nat := 20

def found : Bool :=
  (files c).any (scan L c) || (files c).any fun file => emDashMax ≤ awkCount L c file

def exitStatus : Nat := if files c = [] then 0 else if found L c then 1 else 0

end Gate
end CheckTropes
