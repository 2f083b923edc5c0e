import FabricManuals.Lib.Backtrack
import FabricManuals.Lib.FileTree
import FabricManuals.Lib.OrderedDict
import Mathlib.Data.Char
import Mathlib.Data.List.Dedup
import Mathlib.Data.List.Lex
import Mathlib.Data.List.Sort

/-! # The page filter, `scripts/decision-meta.py`

`finalize` puts a metadata line on the page, scans every source of the project
into a graph of titles and links, finds the page in it by title and adds a Related
section and a breadcrumb.  The scan goes through a set of paths, so its order is
whatever the list of sources says and no result may rely on it.

An exception inside the navigation part ends it before anything of the page has
been changed by it. -/
set_option autoImplicit false

namespace DecisionMeta

open TextFile Backtrack FileTree OrderedDict PosixPath

/-- A letter of a pattern that ignores case; `s` also stands for the long s. -/
def sameLetter (c a : Char) : Bool := a == c || a == c.toUpper || (c == 's' && a == 'ſ')

/-- `[0-9]{8}-[a-z0-9-]+`. -/
def STEM : Regex Char := concat [times 8 (.set isDigit), lit "-".toList, plus true (.set isSlug)]

/-- `^superseded by\s+(\S+)\.md\s*$`, ignoring case. -/
def SUPERSEDED : Regex Char :=
  concat [bos, concat ("superseded by".toList.map fun c => .set (sameLetter c)),
    plus true (.set isSpace), .capture (plus true (.set fun c => !isSpace c)), lit ".".toList,
    .set (sameLetter 'm'), .set (sameLetter 'd'), .star true (.set isSpace), eos '\n']

/-- `\]\(([^)\s]+)\)`. -/
def LINK : Regex Char :=
  concat [lit "](".toList, .capture (plus true (.set fun c => c != ')' && !isSpace c)),
    lit ")".toList]

/-- `^title:\s*(.+?)\s*$` and `^#\s+(.+?)\s*$`, line by line. -/
def titleRe : Regex Char :=
  concat [bol '\n', lit "title:".toList, .star true (.set isSpace),
    .capture (plus false (.set (· != '\n'))), .star true (.set isSpace), eol '\n']

def headingRe : Regex Char :=
  concat [bol '\n', lit "#".toList, plus true (.set isSpace),
    .capture (plus false (.set (· != '\n'))), .star true (.set isSpace), eol '\n']

def PAGE_EXT : List Str := [".md".toList, ".qmd".toList, ".html".toList]
def SKIP_DIRS : List Str := ["_site/".toList, "scripts/".toList]

def hasExt (target : Str) : Bool := PAGE_EXT.any (·.isSuffixOf target)

def stripExt (target : Str) : Str :=
  match PAGE_EXT.find? (·.isSuffixOf target) with
  | some ext => target.take (target.length - ext.length)
  | none => target

def parseFrontmatter (text : Str) : Str :=
  if "---".toList.isPrefixOf text then (upTo "\n---".toList (text.drop 3)).getD [] else []

def unquote (title : Str) : Str :=
  match title with
  | q :: rest =>
    if rest ≠ [] ∧ (q = '"' ∨ q = '\'') ∧ rest.getLast? = some q then rest.dropLast else title
  | [] => title

def parseTitle (text fallback : Str) : Str :=
  match search titleRe (parseFrontmatter text) with
  | some m => unquote (strip (groupOf m))
  | none =>
    match search headingRe text with
    | some m => strip (groupOf m)
    | none => fallback

def pathPart (target : Str) : Str := (target.takeWhile (· != '#')).takeWhile (· != '?')

def resolve (fromDir target : Str) : Option Str :=
  let target := stripExt (pathPart target)
  if target = [] then none
  else
    let joined := if fromDir ≠ [] then normpath (join fromDir target) else normpath target
    if "..".toList.isPrefixOf joined then none else some joined

def external (target : Str) : Bool :=
  ["http://".toList, "https://".toList, "#".toList, "mailto:".toList].any (·.isPrefixOf target)

def linkKey (fromDir target : Str) : Option Str :=
  if external target then none
  else if hasExt (pathPart target) = false then none
  else resolve fromDir target

def outOf (key text : Str) : List Str :=
  let fromDir := dirname key
  let links := (findall LINK text).filterMap (linkKey fromDir)
  let stems := (findall (concat [STEM, lit ".md".toList]) (parseFrontmatter text)).filterMap
    (resolve fromDir)
  ((links ++ stems).filter (· ≠ key)).dedup

/-- The process environment: `QUARTO_PROJECT_DIR` and the working directory. -/
structure Env where
  projectDir : Option Str
  cwd : Str
  rooted : isabs cwd = true

def projectRoot (env : Env) : Str :=
  match env.projectDir with
  | some (c :: dir) => c :: dir
  | _ => dot

/-- What `**/*.md` and `**/*.qmd` match: no name on the way begins with a dot. -/
def IsPage (p : Path) : Prop :=
  (∀ n ∈ p, Plain n ∧ n.head? ≠ some '.') ∧
    ∃ n ∈ p.getLast?, ".md".toList <:+ n ∨ ".qmd".toList <:+ n

instance (p : Path) : Decidable (IsPage p) :=
  inferInstanceAs (Decidable (_ ∧ ∃ n ∈ p.getLast?, _))

structure Source where
  path : Path
  bytes : Except OSError (List UInt8)
  page : IsPage path

def glob (t : Tree) : List Source :=
  t.entries.filterMap fun e => if h : IsPage e.1 then some ⟨e.1, t.read e.1, h⟩ else none

/-- Where the glob starts: the system looks the root up from the working directory. -/
def rootDir (env : Env) (machine : Tree) : Option Path :=
  machine.opendir (if isabs (projectRoot env) then [] else walk [] (split env.cwd))
    (split (projectRoot env))

def globAt (env : Env) (machine : Tree) : List Source :=
  ((rootDir env machine).map fun base => glob (machine.below base)).getD []

/-- What a run goes through: the glob in some order, for a root that is no pattern itself,
since it goes into the pattern of the glob as it is. -/
structure Globbed (env : Env) (machine : Tree) (paths : List Source) : Prop where
  literal : ∀ c ∈ projectRoot env, c ∉ "*?[".toList
  perm : paths.Perm (globAt env machine)

def keyOf (env : Env) (s : Source) : Option Str :=
  (relpath env.cwd (join (projectRoot env) (joinSegs s.path)) (projectRoot env)).map stripExt

def skippedKey (key : Str) : Bool := SKIP_DIRS.any (·.isPrefixOf (key ++ "/".toList))

structure Info where
  title : Str
  out : List Str
deriving DecidableEq

def scanPage (env : Env) (graph : Dict Str Info) (s : Source) : Except PyError (Dict Str Info) :=
  match keyOf env s with
  | none => .error .value
  | some key =>
    if skippedKey key then .ok graph
    else
      match textOf s.bytes with
      | .error (.os _) => .ok graph
      | .error e => .error e
      | .ok text => .ok (graph.set key ⟨parseTitle text (basename key), outOf key text⟩)

def scan (env : Env) (paths : List Source) : Except PyError (Dict Str Info) :=
  paths.foldlM (scanPage env) .empty

inductive Inline
  | str (s : Str)
  | space
  | strong (inlines : List Inline)
  | emph (inlines : List Inline)
  | link (text : List Inline) (url : Str)

/-- The blocks the page came with, and those the filter makes; each item of a list
is one paragraph. -/
inductive Block (β : Type)
  | original (b : β)
  | para (inlines : List Inline)
  | header (inlines : List Inline) (level : Nat) (identifier : Str)
  | bulletList (items : List (List Inline))

structure MetaValue where
  truthy : Bool
  str : Str

structure Doc (β : Type) where
  tier : Option MetaValue
  status : Option MetaValue
  state : Option MetaValue
  scope : Option MetaValue
  title : Option Str
  content : List (Block β)

def statusInlines (status : Str) : List Inline :=
  match first SUPERSEDED [] status with
  | some m =>
    [.str "superseded by".toList, .space,
      .link [.str (groupOf m)] (groupOf m ++ ".html".toList)]
  | none => [.str status]

def add (head : List Inline) (label : Str) (parts : List Inline) : List Inline :=
  (if head.isEmpty then [] else head ++ [.space, .str "·".toList, .space]) ++
    [.strong [.str (label ++ ":".toList)], .space] ++ parts

def addField (head : List Inline) (label : Str) (value : Option MetaValue)
    (parts : Str → List Inline) : List Inline :=
  match value with
  | some v => if v.truthy then add head label (parts v.str) else head
  | none => head

def headLine {β : Type} (doc : Doc β) : List Inline :=
  let plain := fun s => [Inline.str s]
  let head := addField [] "Tier".toList doc.tier plain
  let head := addField head "Status".toList doc.status statusInlines
  let head := addField head "State".toList doc.state plain
  addField head "Scope".toList doc.scope plain

def SECTIONS : List (Str × Str) :=
  [("rfd".toList, "RFDs".toList), ("changelog".toList, "Changelog".toList)]

def SECTION_PAGE_DIR : Str := "pages/".toList

def joinCrumbs : List Inline → List Inline
  | [] => []
  | crumb :: rest => crumb :: rest.flatMap fun c => [.space, .str "›".toList, .space, c]

def breadcrumb (current title : Str) : Option (List Inline) :=
  if current = "index".toList then none
  else
    let ups := ((split (dirname current)).filter (· ≠ [])).flatMap fun _ => "../".toList
    let seg0 := (split current).headD []
    let manuals := Inline.link [.str "Manuals".toList] (ups ++ "index.html".toList)
    let section' :=
      match if '/' ∈ current then SECTIONS.lookup seg0 else none with
      | some name => [Inline.link [.str name] (ups ++ SECTION_PAGE_DIR ++ seg0 ++ ".html".toList)]
      | none => []
    some [.emph (joinCrumbs (manuals :: section' ++ [.str title]))]

def relatedKeys (graph : Dict Str Info) (current : Str) : List Str :=
  let outbound := ((graph.get? current).map Info.out).getD []
  let inbound := (graph.entries.filter fun e => e.2.out.contains current).map Prod.fst
  ((outbound ++ inbound).dedup.filter fun k => k ≠ current ∧ '/' ∈ k ∧ k ∈ graph).insertionSort
    (· ≤ ·)

def relatedItem (env : Env) (graph : Dict Str Info) (current key : Str) :
    Except PyError (List Inline) :=
  let here := dirname current
  match if here ≠ [] then relpath env.cwd key here else some key with
  | none => .error .value
  | some href =>
    .ok [.link [.str (((graph.get? key).map Info.title).getD [])] (href ++ ".html".toList)]

structure Navigation where
  current : Str
  related : List Str
  items : List (List Inline)
  crumb : Option (List Inline)

def navigation (env : Env) (paths : List Source) (title : Option Str) :
    Except PyError (Option Navigation) :=
  match title with
  | none => .ok none
  | some title =>
    if title = [] then .ok none
    else do
      let graph ← scan env paths
      match graph.firstKey (·.title == title) with
      | none => return none
      | some current =>
        let related := relatedKeys graph current
        let items ← related.mapM (relatedItem env graph current)
        return some ⟨current, related, items, breadcrumb current title⟩

def relatedSection {β : Type} (nav : Navigation) : List (Block β) :=
  if nav.related = [] then []
  else [.header [.str "Related".toList] 2 "related".toList, .bulletList nav.items]

/-- Any exception of the navigation part is swallowed. -/
def finalize {β : Type} (env : Env) (paths : List Source) (doc : Doc β) : List (Block β) :=
  let head := headLine doc
  let content := if head.isEmpty then doc.content else .para head :: doc.content
  match navigation env paths doc.title with
  | .ok (some nav) =>
    let content := content ++ relatedSection nav
    match nav.crumb with
    | some crumb => .para crumb :: content
    | none => content
  | _ => content

end DecisionMeta
