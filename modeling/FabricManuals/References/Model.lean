import FabricManuals.Lib.Grouping
import FabricManuals.Lib.TextFile

/-! # The references page, `pages/references.qmd`

The page lists the references of `CITATION.cff` by type.  A reference is a record of
optional fields; a field asked for by index that is not there ends the rendering. -/
set_option autoImplicit false

namespace References

open TextFile OrderedDict

structure KeyError where
  key : Str
deriving DecidableEq

/-- A mapping of field names to texts, such as an author or a conference. -/
abbrev Record := Dict Str Str

/-- A scalar as its truth value and its `str`. -/
structure Scalar where
  truthy : Bool
  str : Str

structure Ref where
  type : Option Str
  title : Option Str
  authors : Option (List Record)
  year : Option Scalar
  journal : Option Str
  conference : Option Record
  institution : Option Record
  publisher : Option Record
  doi : Option Str
  url : Option Str

def TYPE_LABELS : List (Str × Str) :=
  [("article".toList, "Journal Articles".toList),
    ("conference-paper".toList, "Conference Papers".toList),
    ("report".toList, "Technical Reports".toList),
    ("software".toList, "Software".toList),
    ("software-code".toList, "Source Code".toList),
    ("manual".toList, "Manuals & Documentation".toList),
    ("website".toList, "Websites".toList),
    ("generic".toList, "Standards & Miscellaneous".toList)]

def TYPE_ORDER : List Str := TYPE_LABELS.map Prod.fst

def joinWith (sep : Str) (parts : List Str) : Str := sep.intercalate parts

def familyNames : Str := "family-names".toList
def givenNames : Str := "given-names".toList
def name : Str := "name".toList

/-- One round of the loop of `fmt_authors`. -/
def fmtAuthor (a : Record) : Except KeyError Str :=
  match a.get? familyNames with
  | some family =>
    match a.get? givenNames with
    | some given => .ok (family ++ ", ".toList ++ given)
    | none => .error ⟨givenNames⟩
  | none => .ok ((a.get? name).getD [])

def joinAuthors (parts : List Str) : Str :=
  if parts.length ≤ 1 then parts.headD []
  else joinWith "; ".toList parts.dropLast ++ "; and ".toList ++ parts.getLastD []

def fmtAuthors (authors : List Record) : Except KeyError Str :=
  (authors.mapM fmtAuthor).map joinAuthors

/-- `a or b or … or ""`, where an empty text counts as missing. -/
def orElse (values : List (Option Str)) : Str :=
  ((values.filterMap id).find? (· ≠ [])).getD []

def nameOf (entity : Option Record) : Option Str := entity.bind (·.get? name)

def fmtRef (r : Ref) : Except KeyError Str := do
  let authors ← fmtAuthors (r.authors.getD [])
  let year := match r.year with
    | some y => if y.truthy then y.str else []
    | none => []
  let title := r.title.getD []
  let venue := orElse [r.journal, nameOf r.conference, nameOf r.institution, nameOf r.publisher]
  let doi := r.doi.getD []
  let url := r.url.getD []
  let link :=
    if doi ≠ [] then
      "[doi:".toList ++ doi ++ "](https://doi.org/".toList ++ doi ++ ")".toList
    else if url ≠ [] then "[".toList ++ url ++ "](".toList ++ url ++ ")".toList
    else []
  let meta' := joinWith " · ".toList ([authors, year, venue, link].filter (· ≠ []))
  return "- **".toList ++ title ++ "**".toList ++
    if meta' ≠ [] then "  \n  ".toList ++ meta' else []

inductive Item
  | heading (label : Str)
  | entry (text : Str)
deriving DecidableEq

def Item.text : Item → Str
  | .heading label => "\n## ".toList ++ label ++ "\n".toList
  | .entry text => text

def typeOf (r : Ref) : Str := r.type.getD "generic".toList

def byType (refs : List Ref) : Dict Str (List Ref) := groupBy typeOf refs

def emit (label : Str) (group : List Ref) : Except KeyError (List Item) := do
  let entries ← group.mapM fmtRef
  return .heading label :: entries.map .entry

/-- One round of the loop over `TYPE_ORDER`. -/
def emitKnown (groups : Dict Str (List Ref)) (t : Str × Str) : Except KeyError (List Item) :=
  let group := (groups.get? t.1).getD []
  if group.isEmpty then .ok [] else emit t.2 group

def emitOther (e : Str × List Ref) : Except KeyError (List Item) :=
  if !TYPE_ORDER.contains e.1 then emit e.1 e.2 else .ok []

def out (refs : List Ref) : Except KeyError (List Item) := do
  let known ← TYPE_LABELS.mapM (emitKnown (byType refs))
  let others ← (byType refs).entries.mapM emitOther
  return known.flatten ++ others.flatten

def page (refs : List Ref) : Except KeyError Str :=
  (out refs).map fun items => joinWith "\n".toList (items.map Item.text)

end References
