import FabricManuals.CheckRfdNumbers.Passes

/-! # What a silent gate says about the numbers

`check_sound` is what the header comparison supports: the gate reads the first
matching line of the whole file, and it looks only at names that begin with four
alphanumerics and a dash.  `lax_tree_passes` shows what lies outside of that. -/
set_option autoImplicit false

namespace CheckRfdNumbers

open TextFile Backtrack FileTree OrderedDict PosixPath

/-- The lines between a leading `---` and the next. -/
def frontMatter (body : Str) : Option (List Str) :=
  match lines body with
  | opening :: rest =>
    if opening = "---".toList ∧ "---".toList ∈ rest then
      some (rest.takeWhile (· ≠ "---".toList))
    else none
  | [] => none

def rfdField (line : Str) : Option Str := fieldOf "rfd: \"".toList "\"".toList line
def titleField (line : Str) : Option Str := fieldOf "title: \"RFD ".toList ":".toList line

def FirstSays (field : Str → Option Str) (num : Str) (ls : List Str) : Prop :=
  (ls.filterMap field).head? = some num

theorem search_FM_RE (body : Str) :
    (search FM_RE body).map groupOf = ((lines body).filterMap rfdField).head? :=
  search_fieldRe (by decide) (by decide) (by decide) body

theorem search_TITLE_RE (body : Str) :
    (search TITLE_RE body).map groupOf = ((lines body).filterMap titleField).head? :=
  search_fieldRe (by decide) (by decide) (by decide) body

theorem lines_of_frontMatter {body : Str} {block : List Str} (h : frontMatter body = some block) :
    ∃ rest, lines body = "---".toList :: (block ++ rest) := by
  unfold frontMatter at h
  split at h
  · next opening rest hlines =>
      split at h
      · next hcond =>
          obtain rfl := Option.some.inj h
          exact ⟨rest.dropWhile (· ≠ "---".toList), by
            rw [hlines, hcond.1, List.takeWhile_append_dropWhile]⟩
      · cases h
  · cases h

theorem firstSays_block {field : Str → Option Str} (hfence : field "---".toList = none)
    {body num n : Str} {block : List Str} (hbody : FirstSays field num (lines body))
    (hblock : frontMatter body = some block) (hn : FirstSays field n block) : n = num := by
  obtain ⟨rest, hlines⟩ := lines_of_frontMatter hblock
  rw [FirstSays, hlines, List.filterMap_cons, hfence, List.filterMap_append,
    List.head?_append, show _ = some n from hn] at hbody
  exact Option.some.inj hbody

structure NumbersAgree (t : Tree) : Prop where
  named : ∀ d, t.isdir [rfd, d] = true → (first candidateRe [] d).isSome →
    ∃ slug tail, d = numOf d ++ '-' :: slug ++ tail ∧ IsNum (numOf d) ∧
      (numOf d).take 1 = [ORG] ∧ IsSlugText slug ∧ (tail = [] ∨ tail = ['\n'])
  distinct : ∀ d d', t.isdir [rfd, d] = true → (first candidateRe [] d).isSome →
    t.isdir [rfd, d'] = true → (first candidateRe [] d').isSome → numOf d = numOf d' → d = d'
  header : ∀ d, t.isdir [rfd, d] = true → (first candidateRe [] d).isSome →
    ∃ body, readIgnore t (indexOf d) = .ok body ∧
      FirstSays rfdField (numOf d) (lines body) ∧ FirstSays titleField (numOf d) (lines body) ∧
      ∀ block, frontMatter body = some block →
        (∀ n, FirstSays rfdField n block → n = numOf d) ∧
          ∀ n, FirstSays titleField n block → n = numOf d

theorem Clean.name {t : Tree} {d : Name} (h : Clean t d) :
    ∃ slug tail, d = numOf d ++ '-' :: slug ++ tail ∧ IsNum (numOf d) ∧ IsSlugText slug ∧
      (tail = [] ∨ tail = ['\n']) := by
  obtain ⟨m, hm⟩ := Option.isSome_iff_exists.mp h.named
  obtain ⟨slug, tail, hnum, hslug, hd, htail⟩ := first_dirRe hm
  have hnumOf : numOf d = groupOf m := by simp [numOf, hm]
  exact ⟨slug, tail, hnumOf ▸ hd, hnumOf ▸ hnum, hslug, htail⟩

theorem check_sound (U : Unicode) (c : Checkout) (h : check U c = .ok []) : NumbersAgree c.tree := by
  obtain ⟨-, -, hclean, hnodup, -⟩ := (check_eq_nil_iff U c).mp h
  have clean : ∀ d, c.tree.isdir [rfd, d] = true → (first candidateRe [] d).isSome → Clean c.tree d :=
    fun d hdir hcand => hclean d ((mem_candidates c.tree d).mpr ⟨hdir, hcand⟩)
  refine ⟨?_, ?_, ?_⟩
  · intro d hdir hcand
    obtain ⟨slug, tail, hd, hnum, hslug, htail⟩ := (clean d hdir hcand).name
    exact ⟨slug, tail, hd, hnum, (clean d hdir hcand).org, hslug, htail⟩
  · intro d d' hdir hcand hdir' hcand' heq
    exact List.inj_on_of_nodup_map hnodup ((mem_candidates _ _).mpr ⟨hdir, hcand⟩)
      ((mem_candidates _ _).mpr ⟨hdir', hcand'⟩) heq
  · intro d hdir hcand
    obtain ⟨body, hread, hfm, hti⟩ := (clean d hdir hcand).header
    rw [search_FM_RE] at hfm
    rw [search_TITLE_RE] at hti
    refine ⟨body, hread, hfm, hti, fun block hblock => ⟨fun n hn => ?_, fun n hn => ?_⟩⟩
    · exact firstSays_block (by decide) hfm hblock hn
    · exact firstSays_block (by decide) hti hblock hn

def cleanIndex : Str :=
  "---\ntitle: \"RFD 2001: A slug\"\nrfd: \"2001\"\nstate: published\n---\n".toList

/-- The tree the script's self-test builds when nothing is wrong. -/
def cleanTree : Tree where
  entries := [([rfd], .dir), ([rfd, "2001-a-slug".toList], .dir),
    (indexOf "2001-a-slug".toList, .file (ascii cleanIndex)),
    ([aliasesMd], .file (ascii "| RFD 0001 | RFD 2001 |\n".toList))]
  nodup := by decide
  plain := by decide
  closed := by decide

def cleanCheckout : Checkout := ⟨["tmp".toList], ["check-rfd-numbers.py".toList], cleanTree⟩

theorem clean_passes : check .ascii cleanCheckout = .ok [] := by decide +kernel

def firstSlug : Name := "2001-a-slug".toList
def secondSlug : Name := "2002-b-slug".toList

def firstLinked : Str :=
  "---\ntitle: \"RFD 2001: A slug\"\nrfd: \"2001\"\n---\nSee [b](../2002-b-slug/index.md), the\n[list](../index.md) and/or [b](../../rfd/2002-b-slug/index.md).\n".toList

def secondLinked : Str :=
  "---\nrfd: \"2002\"\ntitle: \"RFD 2002: B slug\"\n---\nSee [a](../2001-a-slug/index.md).\n".toList

/-- Two folders that link to each other, once on a way that the gate does not read. -/
def linkedTree : Tree where
  entries := [([rfd], .dir), ([rfd, firstSlug], .dir), (indexOf firstSlug, .file (ascii firstLinked)),
    ([rfd, secondSlug], .dir), (indexOf secondSlug, .file (ascii secondLinked)),
    ([aliasesMd], .file (ascii "| RFD 0001 | RFD 2001 |\n| RFD 0002 | RFD 2002 |\n".toList))]
  nodup := by decide
  plain := by decide
  closed := by decide

def linkedCheckout : Checkout := ⟨["tmp".toList], ["check-rfd-numbers.py".toList], linkedTree⟩

theorem linked_passes : check .ascii linkedCheckout = .ok [] := by decide +kernel

theorem check_sound_linked : NumbersAgree linkedTree :=
  check_sound .ascii linkedCheckout linked_passes

/-- Every directory under `rfd/` is a numbered folder whose front matter agrees. -/
structure Numbered (t : Tree) : Prop where
  named : ∀ d, t.isdir [rfd, d] = true → ∃ num slug, d = num ++ '-' :: slug ∧ IsNum num ∧
    num.take 1 = [ORG] ∧ IsSlugText slug
  distinct : ∀ d d' num slug slug', t.isdir [rfd, d] = true → t.isdir [rfd, d'] = true →
    IsNum num → d = num ++ '-' :: slug → d' = num ++ '-' :: slug' → d = d'
  header : ∀ d num slug, t.isdir [rfd, d] = true → IsNum num → d = num ++ '-' :: slug →
    ∃ body block, readIgnore t (indexOf d) = .ok body ∧ frontMatter body = some block ∧
      (∃ line ∈ block, rfdField line = some num) ∧ ∃ line ∈ block, titleField line = some num

/-- A folder the pre-filter drops, a name that ends in a newline, and a page whose
fields stand outside any front matter. -/
def laxTree : Tree where
  entries := [([rfd], .dir), ([rfd, "notes".toList], .dir), ([rfd, "2001-a-slug".toList], .dir),
    ([rfd, "2002-b\n".toList], .dir),
    (indexOf "2001-a-slug".toList,
      .file (ascii "Copied text.\n\ntitle: \"RFD 2001: A slug\"\nrfd: \"2001\"\n".toList)),
    (indexOf "2002-b\n".toList, .file (ascii "---\ntitle: \"RFD 2002: B\"\nrfd: \"2002\"\n---\n".toList)),
    ([aliasesMd], .file (ascii "| RFD 0001 | RFD 2001 |\n| RFD 0002 | RFD 2002 |\n".toList))]
  nodup := by decide
  plain := by decide
  closed := by decide

def laxCheckout : Checkout := ⟨["tmp".toList], ["check-rfd-numbers.py".toList], laxTree⟩

theorem lax_tree_passes :
    check .ascii laxCheckout = .ok [] ∧
      (laxTree.isdir [rfd, "notes".toList] = true ∧ (first DIR_RE [] "notes".toList).isNone) ∧
      (laxTree.isdir [rfd, "2002-b\n".toList] = true ∧ '\n' ∈ "2002-b\n".toList) ∧
      (∃ body, readIgnore laxTree (indexOf "2001-a-slug".toList) = .ok body ∧ frontMatter body = none) ∧
      ¬ ∀ (U : Unicode) (c : Checkout), check U c = .ok [] → Numbered c.tree := by
  have hpass : check .ascii laxCheckout = .ok [] := by decide +kernel
  refine ⟨hpass, ⟨by decide, by decide⟩, ⟨by decide, by decide⟩, ⟨_, rfl, by decide +kernel⟩, ?_⟩
  intro hsound
  obtain ⟨num, slug, hd, hnum, -⟩ := (hsound .ascii laxCheckout hpass).named "notes".toList (by decide)
  have hlen := congrArg (List.take 4) hd
  rw [← hnum.length, List.take_left] at hlen
  have hhex := hnum.hex 'n' (by rw [← hlen, hnum.length]; decide)
  exact absurd hhex (by decide)

end CheckRfdNumbers
