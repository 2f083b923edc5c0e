import FabricManuals.Lib.Backtrack
import FabricManuals.Lib.FileTree
import FabricManuals.Lib.OrderedDict
import Mathlib.Data.Char
import Mathlib.Data.List.Lex
import Mathlib.Data.List.Sort

/-! # The RFD number gate, `scripts/check-rfd-numbers.py`

`check` runs the passes in the order of the script: the directory names with the
dictionary `seen` and the two header fields, the walk for old citations, the walk
for relative links, the alias table.  A failing `open` outside the citation walk
ends the run with the exception. -/
set_option autoImplicit false

namespace CheckRfdNumbers

open TextFile Backtrack FileTree OrderedDict PosixPath

def ORG : Char := '2'

def DIR_RE : Regex Char :=
  concat [bos, .capture (times 4 (.set isHex)), lit "-".toList, plus true (.set isSlug), eos '\n']

def fieldRe (opening closing : Str) : Regex Char :=
  concat [bol '\n', lit opening, .capture (times 4 (.set isHex)), lit closing]

def FM_RE : Regex Char := fieldRe "rfd: \"".toList "\"".toList
def TITLE_RE : Regex Char := fieldRe "title: \"RFD ".toList ":".toList

def OLD_CITE_RE (U : Unicode) : Regex Char :=
  concat [wordBoundary U.word, lit "RFD ".toList,
    .capture (concat [lit "0".toList, times 3 (.set U.decimal)]), wordBoundary U.word]

/-- `^[0-9a-zA-Z]{4}-`, what makes a directory count as an RFD at all. -/
def candidateRe : Regex Char := concat [bos, times 4 (.set isAlnum), lit "-".toList]

/-- `\]\(\.\./([0-9a-zA-Z]{4}-[a-z0-9-]+)/`. -/
def linkRe : Regex Char :=
  concat [lit "](../".toList,
    .capture (concat [times 4 (.set isAlnum), lit "-".toList, plus true (.set isSlug)]),
    lit "/".toList]

/-- `RFD ([0-9a-f]{4})`. -/
def aliasRe : Regex Char := concat [lit "RFD ".toList, .capture (times 4 (.set isHex))]

inductive Problem
  | noRfdDirectory
  | noDirectories
  | badName (d : Name)
  | badOrg (d : Name) (digit : Str)
  | serialUsed (d : Name) (num : Str) (by' : Name)
  | noIndex (d : Name)
  | noField (d : Name)
  | fieldDiffers (d : Name) (found num : Str)
  | noTitle (d : Name)
  | titleDiffers (d : Name) (found num : Str)
  | oldCitation (p : Path) (num : Str)
  | brokenLink (p : Path) (target : Name)
  | noAliases
  | noRow (num : Str)
deriving DecidableEq

def pathText (p : Path) : Str := '/' :: joinSegs p

def Problem.text : Problem → Str
  | .noRfdDirectory => "no rfd/ directory".toList
  | .noDirectories => "no RFD directories found, which is never correct here".toList
  | .badName d => d ++ ": not four lower-case hex digits and a slug".toList
  | .badOrg d digit =>
    d ++ ": organization digit is ".toList ++ digit ++ ", not ".toList ++ [ORG]
  | .serialUsed d num by' =>
    d ++ ": serial ".toList ++ num ++ " already used by ".toList ++ by'
  | .noIndex d => d ++ ": has no index.md".toList
  | .noField d => d ++ ": front matter has no four-hex-digit rfd: field".toList
  | .fieldDiffers d found num =>
    d ++ ": rfd: is ".toList ++ found ++ ", directory says ".toList ++ num
  | .noTitle d => d ++ ": title does not start 'RFD <num>:'".toList
  | .titleDiffers d found num =>
    d ++ ": title says ".toList ++ found ++ ", directory says ".toList ++ num
  | .oldCitation p num =>
    pathText p ++ ": cites RFD ".toList ++ num ++ " in the old decimal form".toList
  | .brokenLink p target =>
    pathText p ++ ": links to ../".toList ++ target ++ "/ which does not exist".toList
  | .noAliases => "ALIASES.md is missing, so old numbers do not resolve".toList
  | .noRow num => "ALIASES.md has no row for RFD ".toList ++ num

/-- Where the gate runs: the root as absolute segments, the script's own path, and
the tree under the root. -/
structure Checkout where
  root : Path
  me : Path
  tree : Tree

def rfd : Name := "rfd".toList
def aliasesMd : Name := "ALIASES.md".toList
def indexOf (d : Name) : Path := [rfd, d, "index.md".toList]

def sorted (l : List Str) : List Str := l.insertionSort (· ≤ ·)

def candidates (t : Tree) : List Name :=
  sorted ((t.listdir [rfd]).filter fun d => t.isdir [rfd, d] && (first candidateRe [] d).isSome)

structure Numbering where
  problems : List Problem
  seen : Dict Str Name

def compareField (re : Regex Char) (missing : Problem) (differs : Str → Problem) (num body : Str) :
    List Problem :=
  match search re body with
  | none => [missing]
  | some m => if groupOf m ≠ num then [differs (groupOf m)] else []

def checkDir (t : Tree) (st : Numbering) (d : Name) : Except PyError Numbering :=
  match first DIR_RE [] d with
  | none => .ok { st with problems := st.problems ++ [.badName d] }
  | some m =>
    let num := groupOf m
    let org := if num.take 1 ≠ [ORG] then [Problem.badOrg d (num.take 1)] else []
    let collision :=
      match st.seen.get? num with
      | some by' => [Problem.serialUsed d num by']
      | none => []
    let seen := st.seen.set num d
    if t.exists (indexOf d) = false then
      .ok ⟨st.problems ++ org ++ collision ++ [.noIndex d], seen⟩
    else
      match readIgnore t (indexOf d) with
      | .error e => .error e
      | .ok body =>
        .ok ⟨st.problems ++ org ++ collision ++
          compareField FM_RE (.noField d) (fun found => .fieldDiffers d found num) num body ++
          compareField TITLE_RE (.noTitle d) (fun found => .titleDiffers d found num) num body,
          seen⟩

def skippedDirs : List Name := [".git".toList, "__pycache__".toList, "_site".toList]

def skipped (parts : Path) : Bool := skippedDirs.any parts.contains

def citeFile (U : Unicode) (c : Checkout) (cur : Path) (f : Name) : List Problem :=
  if f = aliasesMd ∨ c.root ++ (cur ++ [f]) = c.me then []
  else
    match readIgnore c.tree (cur ++ [f]) with
    | .error _ => []
    | .ok body => (findall (OLD_CITE_RE U) body).map (.oldCitation (c.root ++ (cur ++ [f])))

def citePass (U : Unicode) (c : Checkout) : List Problem :=
  (c.tree.walk []).flatMap fun (cur, files) =>
    if skipped (c.root ++ cur) then [] else files.flatMap (citeFile U c cur)

def linkFile (c : Checkout) (cur : Path) (f : Name) : Except PyError (List Problem) :=
  if ".md".toList.isSuffixOf f then
    match readIgnore c.tree (cur ++ [f]) with
    | .error e => .error e
    | .ok body =>
      .ok (((findall linkRe body).filter fun d => !c.tree.isdir [rfd, d]).map
        (.brokenLink (c.root ++ (cur ++ [f]))))
  else .ok []

def collect {α : Type} (f : α → Except PyError (List Problem)) :
    List α → Except PyError (List Problem)
  | [] => .ok []
  | a :: rest => do
    let here ← f a
    let later ← collect f rest
    return here ++ later

def linkPass (c : Checkout) : Except PyError (List Problem) :=
  collect (fun p => linkFile c p.1 p.2)
    ((c.tree.walk [rfd]).flatMap fun (cur, files) => files.map fun f => (cur, f))

def aliasPass (t : Tree) (seen : Dict Str Name) : Except PyError (List Problem) :=
  if t.exists [aliasesMd] = false then .ok [.noAliases]
  else do
    let text ← readStrict t [aliasesMd]
    let mapped := findall aliasRe text
    return ((sorted seen.keys).filter fun num => !mapped.contains num).map .noRow

def check (U : Unicode) (c : Checkout) : Except PyError (List Problem) :=
  if c.tree.isdir [rfd] = false then .ok [.noRfdDirectory]
  else do
    let dirs := candidates c.tree
    let none' := if dirs = [] then [Problem.noDirectories] else []
    let numbering ← dirs.foldlM (checkDir c.tree) ⟨none', .empty⟩
    let links ← linkPass c
    let rows ← aliasPass c.tree numbering.seen
    return numbering.problems ++ citePass U c ++ links ++ rows

/-- A run of the script: the lines it prints and its exit status. -/
def main (U : Unicode) (c : Checkout) : Except PyError (List Str × Nat) := do
  let found ← check U c
  return (found.map Problem.text ++ [(toString found.length).toList ++ " problems".toList],
    if found = [] then 0 else 1)

end CheckRfdNumbers
