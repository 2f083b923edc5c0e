import FabricManuals.CheckRfdNumbers.Soundness
import FabricManuals.DecisionMeta.Graph

/-! # The links the page filter follows and the gate does not read

The gate looks in `.md` files for the letters `](../NAME/` and takes every such name
below `rfd/`; the page filter follows any link of an `.md` or `.qmd` page from the
directory of the page.  What the gate vouches for is `Covered`. -/
set_option autoImplicit false

namespace CheckRfdNumbers

open TextFile Backtrack FileTree PosixPath DecisionMeta

/-- A link of a scanned page below `rfd/` that resolves to something in a folder
named like an RFD. -/
structure FolderLink (t : Tree) (s : Source) (target name : Str) : Prop where
  scanned : s ∈ glob t
  below : s.path.head? = some rfd
  linked : ∃ text, textOf s.bytes = .ok text ∧ target ∈ findall LINK text
  resolved : ∃ key rest, linkKey (dirname s.key) target = some key ∧ split key = rfd :: name :: rest
  folder : IsFolderRef name

/-- The spelling the gate reads: an `.md` page, and a target that climbs one step and
enters the folder by name. -/
def Covered (s : Source) (target name : Str) : Prop :=
  (∃ n ∈ s.path.getLast?, ".md".toList <:+ n) ∧ "../".toList ++ (name ++ "/".toList) <+: target

instance (s : Source) (target name : Str) : Decidable (Covered s target name) :=
  inferInstanceAs (Decidable (_ ∧ _))

theorem linked_text {text target : Str} (h : target ∈ findall LINK text) :
    ∃ pre post, text = pre ++ ("](".toList ++ (target ++ post)) := by
  have hrun : ∀ before after d, d ∈ LINK.run ⟨before, after, none⟩ →
      ∃ target w, w = "](".toList ++ (target ++ ")".toList) ∧
        Advances ⟨before, after, none⟩ d w ∧ d.group = some target := by
    intro before after d hd
    simp only [LINK, run_concat_cons, run_concat_nil, List.mem_flatMap, List.mem_singleton,
      mem_run_lit, mem_run_capture, mem_run_plus_set] at hd
    obtain ⟨e, ⟨hopen, -⟩, _, ⟨g, ⟨w, -, -, htarget, -⟩, rfl⟩, d, ⟨hclose, hg⟩, rfl⟩ := hd
    have hclose' : Advances g d ")".toList := hclose
    rw [htarget.consumedBy] at hg
    exact ⟨w, _, rfl, hopen.trans (htarget.trans hclose'), hg⟩
  obtain ⟨pre, w, post, rfl, rfl⟩ :=
    findall_sound (fun _ target w _ => w = "](".toList ++ (target ++ ")".toList)) hrun h
  exact ⟨pre, ")".toList ++ post, by simp⟩

theorem isdir_of_covered {U : Unicode} {c : Checkout} (h : check U c = .ok []) {s : Source}
    {target name : Str} (hlink : FolderLink c.tree s target name) (hcovered : Covered s target name) :
    c.tree.isdir [rfd, name] = true := by
  obtain ⟨hrfd, -, -, -, -, hlinks, -⟩ := (check_eq_nil_iff U c).mp h
  obtain ⟨⟨f, hf, hmd⟩, rest, hrest⟩ := hcovered
  obtain ⟨cur, hpath⟩ := List.getLast?_eq_some_iff.mp hf
  obtain ⟨⟨e, he⟩, hbytes⟩ := (mem_glob_iff ..).mp hlink.scanned
  obtain ⟨text, htext, htarget⟩ := hlink.linked
  obtain ⟨bytes, hread, hdecode⟩ := (textOf_eq_ok ..).mp htext
  rw [hbytes, hpath] at hread
  rw [hpath] at he
  have hbelow : [rfd] <+: cur := by
    have hhead := hlink.below
    rw [hpath] at hhead
    cases cur with
    | nil =>
        obtain rfl : f = rfd := by simpa using hhead
        exact absurd hmd (by decide)
    | cons a cur => exact ⟨cur, by simpa using hhead.symm⟩
  have hfile : e ≠ .dir := by
    intro h
    subst h
    have hfind := (find?_file c.tree).mpr he
    rw [read_eq_ok_iff, hfind] at hread
    cases hread
  obtain ⟨bytes', hread', hnames⟩ :=
    (linkPass_eq_nil_iff c hrfd).mp hlinks cur f e hbelow he hfile hmd
  obtain rfl : bytes = bytes' := Except.ok.inj (hread.symm.trans hread')
  obtain ⟨pre, post, hsplit⟩ := linked_text htarget
  refine hnames name ((mem_findall_linkRe ..).mpr ⟨hlink.folder, pre, rest ++ post, ?_⟩)
  rw [decodeIgnore_of_decode hdecode, hsplit, ← hrest]
  simp

theorem folder_links_exist_iff (U : Unicode) (c : Checkout) (h : check U c = .ok []) :
    (∀ s target name, FolderLink c.tree s target name → c.tree.isdir [rfd, name] = true) ↔
      ∀ s target name, FolderLink c.tree s target name → ¬ Covered s target name →
        c.tree.isdir [rfd, name] = true := by
  refine ⟨fun hall s target name hlink _ => hall s target name hlink, fun hrest s target name hlink => ?_⟩
  by_cases hcovered : Covered s target name
  · exact isdir_of_covered h hlink hcovered
  · exact hrest s target name hlink hcovered

def linkedPage : Source := ⟨indexOf firstSlug, .ok (ascii firstLinked), by decide⟩

theorem isFolderRef_second : IsFolderRef secondSlug :=
  ⟨"2002".toList, "b-slug".toList, rfl, rfl, by decide, ⟨by decide, by decide⟩⟩

theorem folderLink_linked {target : Str} (hlinked : target ∈ findall LINK firstLinked)
    (hkey : linkKey (dirname linkedPage.key) target = some "rfd/2002-b-slug/index".toList) :
    FolderLink linkedTree linkedPage target secondSlug where
  scanned := mem_glob_of_file _ (by simp [linkedTree])
  below := by decide
  linked := ⟨firstLinked, by decide +kernel, hlinked⟩
  resolved := ⟨_, ["index".toList], hkey, by decide +kernel⟩
  folder := isFolderRef_second

theorem folder_links_exist_iff_linked :
    (∃ target, FolderLink linkedTree linkedPage target secondSlug ∧ Covered linkedPage target secondSlug) ∧
    (∃ target, FolderLink linkedTree linkedPage target secondSlug ∧ ¬ Covered linkedPage target secondSlug) ∧
    ((∀ s target name, FolderLink linkedTree s target name → linkedTree.isdir [rfd, name] = true) ↔
      ∀ s target name, FolderLink linkedTree s target name → ¬ Covered s target name →
        linkedTree.isdir [rfd, name] = true) := by
  refine ⟨⟨"../2002-b-slug/index.md".toList, folderLink_linked ?_ ?_, by decide⟩,
    ⟨"../../rfd/2002-b-slug/index.md".toList, folderLink_linked ?_ ?_, by decide⟩,
    folder_links_exist_iff .ascii linkedCheckout linked_passes⟩
  all_goals decide +kernel

def goneFolder : Name := "2099-gone".toList

def wanderingText : Str := cleanIndex ++ "See [gone](../../rfd/2099-gone/index.md).\n".toList
def quartoText : Str := "See [gone](../2099-gone/index.md).\n".toList

/-- One link takes a way of its own to the folder, the other stands in a `.qmd` page. -/
def goneTree : Tree where
  entries := [([rfd], .dir), ([rfd, "2001-a-slug".toList], .dir),
    (indexOf "2001-a-slug".toList, .file (ascii wanderingText)),
    ([rfd, "2001-a-slug".toList, "notes.qmd".toList], .file (ascii quartoText)),
    ([aliasesMd], .file (ascii "| RFD 0001 | RFD 2001 |\n".toList))]
  nodup := by decide
  plain := by decide
  closed := by decide

def goneCheckout : Checkout := ⟨["tmp".toList], ["check-rfd-numbers.py".toList], goneTree⟩

def wanderingPage : Source :=
  ⟨indexOf "2001-a-slug".toList, .ok (ascii wanderingText), by decide⟩

def quartoPage : Source :=
  ⟨[rfd, "2001-a-slug".toList, "notes.qmd".toList], .ok (ascii quartoText), by decide⟩

theorem isFolderRef_gone : IsFolderRef goneFolder :=
  ⟨"2099".toList, "gone".toList, rfl, rfl, by decide, ⟨by decide, by decide⟩⟩

theorem gone_links_pass :
    check .ascii goneCheckout = .ok [] ∧ goneTree.isdir [rfd, goneFolder] = false ∧
      FolderLink goneTree wanderingPage "../../rfd/2099-gone/index.md".toList goneFolder ∧
      FolderLink goneTree quartoPage "../2099-gone/index.md".toList goneFolder ∧
      ¬ ∀ (U : Unicode) (c : Checkout), check U c = .ok [] → ∀ s target name,
        FolderLink c.tree s target name → c.tree.isdir [rfd, name] = true := by
  have hpass : check .ascii goneCheckout = .ok [] := by decide +kernel
  have hwandering : FolderLink goneTree wanderingPage "../../rfd/2099-gone/index.md".toList goneFolder :=
    ⟨mem_glob_of_file _ (by simp [goneTree]), by decide, ⟨_, rfl, by decide +kernel⟩,
      ⟨"rfd/2099-gone/index".toList, ["index".toList], by decide +kernel, by decide +kernel⟩,
      isFolderRef_gone⟩
  have hquarto : FolderLink goneTree quartoPage "../2099-gone/index.md".toList goneFolder :=
    ⟨mem_glob_of_file _ (by simp [goneTree]), by decide, ⟨_, rfl, by decide +kernel⟩,
      ⟨"rfd/2099-gone/index".toList, ["index".toList], by decide +kernel, by decide +kernel⟩,
      isFolderRef_gone⟩
  refine ⟨hpass, by decide, hwandering, hquarto, fun hclaim => ?_⟩
  have := hclaim .ascii goneCheckout hpass _ _ _ hwandering
  exact absurd this (by decide)

end CheckRfdNumbers
