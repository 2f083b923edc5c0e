import FabricManuals.Lib.Attempts
import FabricManuals.References.Model

/-! # The page is its list, sorted into parts

The two loops share the groups between them: what the first leaves, the second takes. -/
set_option autoImplicit false

namespace References

open TextFile OrderedDict Attempts

structure Part where
  type : Str
  refs : List Ref

def Part.label (s : Part) : Str := (TYPE_LABELS.lookup s.type).getD s.type

/-- The parts hold each reference once, under its type; known types come first, in the
fixed order, and the others as they first appear. -/
structure Arranged (refs : List Ref) (parts : List Part) : Prop where
  complete : (parts.flatMap Part.refs).Perm refs
  group : ∀ s ∈ parts, s.refs = refs.filter (fun r => typeOf r = s.type) ∧ s.refs ≠ []
  order : ∃ known others, parts.map Part.type = known ++ others ∧ known.Sublist TYPE_ORDER ∧
    (∀ t ∈ others, t ∉ TYPE_ORDER) ∧
    others.Pairwise fun t t' => (refs.map typeOf).idxOf t < (refs.map typeOf).idxOf t'

def Shows (s : Part) (block : List Item) : Prop :=
  ∃ texts, s.refs.mapM fmtRef = .ok texts ∧ block = .heading s.label :: texts.map .entry

def entryText : Item → Option Str
  | .entry text => some text
  | .heading _ => none

def entriesOf (items : List Item) : List Str := items.filterMap entryText

/-- What a rendering of the page comes to: the printed text is that of the parts, one after
the other. -/
def Complete (refs : List Ref) : Except KeyError Str → Prop
  | .ok text => ∃ parts blocks texts, Arranged refs parts ∧ List.Forall₂ Shows parts blocks ∧
      text = joinWith "\n".toList (blocks.flatten.map Item.text) ∧
      refs.mapM fmtRef = .ok texts ∧ (entriesOf blocks.flatten).Perm texts
  | .error e => ∃ r ∈ refs, fmtRef r = .error e

end References
