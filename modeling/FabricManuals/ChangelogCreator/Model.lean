import FabricManuals.Lib.FileScript
import FabricManuals.Lib.Replace

/-! # New changelog entries, `scripts/create_changelog_entry.exs`

The script as a program over the file tree it runs in.  Contents are binaries; what
it prints is left out.  The date library and the cutting of a string into graphemes
are parameters that carry what the script relies on. -/
set_option autoImplicit false

namespace ChangelogCreator

open TextFile Backtrack FileTree FileScript

abbrev Bin := List UInt8

structure IsStem (s : Str) : Prop where
  length : s.length = 8
  digits : ∀ c ∈ s, isDigit c = true

/-- Dates as the library reads and prints them: it parses `%Y%m%d` from exact
eight-digit texts only, prints `%Y-%m-%d` as the same digits, and names the days of
the week in letters. -/
structure Timex (δ : Type) where
  parse : Str → Option δ
  ymd : δ → Bin
  weekday : δ → Bin
  parse_exact : ∀ s d, parse s = some d → IsStem s
  ymd_parse : ∀ s d, parse s = some d →
    ymd d = ascii (s.take 4 ++ '-' :: ((s.drop 4).take 2 ++ '-' :: s.drop 6))
  weekday_letters : ∀ d, ∀ b ∈ weekday d, (65 ≤ b.toNat ∧ b.toNat ≤ 90) ∨ (97 ≤ b.toNat ∧ b.toNat ≤ 122)

/-- Grapheme clusters; an ASCII character other than a carriage return is one. -/
structure Graphemes where
  split : Str → List Str
  flatten_split : ∀ s, (split s).flatten = s
  split_ascii : ∀ s, (∀ c ∈ s, c.toNat < 128 ∧ c ≠ '\r') → split s = s.map fun c => [c]

def Graphemes.slice (g : Graphemes) (s : Str) (n : Nat) : Str := ((g.split s).take n).flatten

def changelogDir : Name := "changelog".toList
def deckLogEnding : Str := "-deck-log.md".toList

/-- `^\d{8}$`. -/
def stemRe : Regex Char := concat [bos, times 8 (.set isDigit), eos '\n']

def isDateText (s : Str) : Bool := (search stemRe s).isSome

def getDateStem (today : Str) : List Str → Str
  | [] => today
  | dateStem :: _ => dateStem

section Script
variable {δ : Type} (tx : Timex δ) (g : Graphemes)

def validateDateFormat (dateStem : Str) : Except Str Unit :=
  if isDateText dateStem then
    match tx.parse dateStem with
    | some _ => .ok ()
    | none => .error "Invalid date format. Expected YYYYMMDD.".toList
  else .error "Date stem must be in YYYYMMDD format.".toList

/-- `changelog/**/*-deck-log.md`, which passes no name that begins with a dot. -/
def deckLogPattern (p : Path) : Bool :=
  match p with
  | top :: rest =>
    top == changelogDir && rest.all (fun n => n.head? != some '.') &&
      rest.getLast?.any deckLogEnding.isSuffixOf
  | [] => false

def basename (p : Path) : Name := p.getLast?.getD []

def datePart (p : Path) : Str := g.slice (basename p) 8

def latestOf (files : List Path) : Option Path :=
  let dated := (files.map fun file => (file, datePart g file)).filter fun e => isDateText e.2
  ((dated.insertionSort fun a b => b.2 ≤ a.2).head?).map Prod.fst

def findLatestDeckLogFile : Script (Option Path) := do
  let files ← File.wildcard deckLogPattern
  match files with
  | [] => return none
  | files => return latestOf g files

def newline : UInt8 := 10

def titleOpening : Bin := ascii "# V-Sekai Deck Log - ".toList

def title (date day : Bin) : Bin :=
  titleOpening ++ date ++ ascii " (".toList ++ day ++ ascii ")".toList

def basicTemplate (date day : Bin) : Bin :=
  title date day ++ ascii "\n\nDate: ".toList ++ date ++ ascii "\n\n- Initial entry.\n".toList

def fillPlaceholders (date day content : Bin) : Bin :=
  sub (lit (ascii "%%DAY_OF_WEEK%%".toList)) day (sub (lit (ascii "%%DATE%%".toList)) date content)

/-- The last step is `^# V-Sekai Deck Log - .*`, line by line. -/
def updateContent (date day content : Bin) : Bin :=
  sub (lineOpening newline titleOpening) (title date day) (fillPlaceholders date day content)

def createBasicTemplate (newFilePath : Path) (date day : Bin) : Script Unit :=
  File.write newFilePath (basicTemplate date day)

def copyAndUpdateFile (latestSourceFile newFilePath : Path) (date day : Bin) : Script Unit := do
  File.cp latestSourceFile newFilePath
  let content ← File.read newFilePath
  File.write newFilePath (updateContent date day content)

def handleNewFileCreation (newFilePath : Path) (date day : Bin) : Script Unit := do
  match ← findLatestDeckLogFile g with
  | none => createBasicTemplate newFilePath date day
  | some latestSourceFile => copyAndUpdateFile latestSourceFile newFilePath date day

def createChangelogEntry (actualNewStem : Str) : Script Unit :=
  let targetSubdir : Path := [changelogDir, g.slice actualNewStem 4]
  let newFilePath : Path := targetSubdir ++ [actualNewStem ++ deckLogEnding]
  match tx.parse actualNewStem with
  | none => .crash .badMatch
  | some date => do
    File.mkdir_p targetSubdir
    if ← File.exists? newFilePath then File.touch newFilePath
    else
      match ← findLatestDeckLogFile g with
      | none => handleNewFileCreation g newFilePath (tx.ymd date) (tx.weekday date)
      | some latestSourceFile =>
        if datePart g latestSourceFile < actualNewStem then
          handleNewFileCreation g newFilePath (tx.ymd date) (tx.weekday date)
        else File.touch latestSourceFile

def main (today : Str) (args : List Str) : Script Nat :=
  let actualNewStem := getDateStem today args
  match validateDateFormat tx actualNewStem with
  | .ok () => do
    createChangelogEntry tx g actualNewStem
    return 0
  | .error _ => return 1

structure Invocation where
  args : List Str
  today : Str

def Invocation.stem (inv : Invocation) : Str := getDateStem inv.today inv.args

def after (inv : Invocation) (t : Tree) : Tree := (exec (main tx g inv.today inv.args) t).1

def runAll (invs : List Invocation) (t : Tree) : Tree := invs.foldl (fun t inv => after tx g inv t) t

end Script

end ChangelogCreator
