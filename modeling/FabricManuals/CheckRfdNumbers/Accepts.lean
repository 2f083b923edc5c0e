import FabricManuals.CheckRfdNumbers.Soundness

/-! # The gate accepts every conforming tree

`Conforming` says what a well-kept repository looks like, without a word about how
the gate reads it; `check_accepts` is that such a tree gives an empty list, whatever
follows the front matter and in whatever order the entries are listed. -/
set_option autoImplicit false

namespace CheckRfdNumbers

open Lines TextFile Backtrack FileTree OrderedDict PosixPath

structure FolderName (d num : Str) : Prop where
  isNum : IsNum num
  org : num.take 1 = [ORG]
  name : ∃ slug, IsSlugText slug ∧ d = num ++ '-' :: slug

/-- A line `| RFD 0ddd | RFD num | ...` of the alias table. -/
def IsAliasRow (U : Unicode) (old num line : Str) : Prop :=
  IsOldNum U old ∧ ∃ first second rest, line.splitOn '|' = [] :: first :: second :: rest ∧
    strip first = "RFD ".toList ++ old ∧ strip second = "RFD ".toList ++ num

/-- The text opens with a front-matter block that has one `rfd:` and one `title:` line. -/
structure HasHeader (body num : Str) : Prop where
  block : ∃ block rest, lines body = "---".toList :: (block ++ "---".toList :: rest) ∧
    "---".toList ∉ block ∧
    block.filter (fun l => "rfd:".toList.isPrefixOf l) = ["rfd: \"".toList ++ num ++ "\"".toList] ∧
    ∃ title, block.filter (fun l => "title:".toList.isPrefixOf l) = [title] ∧
      ("title: \"RFD ".toList ++ num ++ ":".toList) <+: title

structure Conforming (U : Unicode) (c : Checkout) : Prop where
  folder : ∃ d, c.tree.isdir [rfd, d] = true
  folders : ∀ d, c.tree.isdir [rfd, d] = true → ∃ num, FolderName d num
  distinct : ∀ d d' num, c.tree.isdir [rfd, d] = true → c.tree.isdir [rfd, d'] = true →
    FolderName d num → FolderName d' num → d = d'
  headers : ∀ d num, c.tree.isdir [rfd, d] = true → FolderName d num →
    ∃ bytes, (indexOf d, Entry.file bytes) ∈ c.tree.entries ∧ HasHeader (decodeIgnore bytes) num
  pages : ∀ cur f bytes, [rfd] <+: cur → (cur ++ [f], Entry.file bytes) ∈ c.tree.entries →
    ".md".toList <:+ f → (∃ d, cur = [rfd, d]) ∧
      ∀ pre name post, decodeIgnore bytes = pre ++ ("](../".toList ++ (name ++ '/' :: post)) →
        IsFolderRef name → c.tree.isdir [rfd, name] = true
  aliases : ∃ bytes text, ([aliasesMd], Entry.file bytes) ∈ c.tree.entries ∧
    decode bytes = some text ∧ ∀ d num, c.tree.isdir [rfd, d] = true → FolderName d num →
      ∃ old, ∃ line ∈ lines text, IsAliasRow U old num line
  readable : ∀ e ∈ c.tree.entries, e.2 = .dir ∨ ∃ bytes, e.2 = .file bytes
  uncited : ∀ cur f bytes, (cur ++ [f], Entry.file bytes) ∈ c.tree.entries → f ≠ aliasesMd →
    c.root ++ (cur ++ [f]) ≠ c.me → ∀ num, ¬ Cites U (decodeIgnore bytes) num

theorem FolderName.numOf_eq {d num : Str} (h : FolderName d num) : numOf d = num := by
  obtain ⟨slug, hslug, rfl⟩ := h.name
  obtain ⟨m, hm, hgroup⟩ := first_dirRe_of_name h.isNum hslug
  simp [numOf, hm, hgroup]

theorem FolderName.candidate {d num : Str} (h : FolderName d num) : (first candidateRe [] d).isSome := by
  obtain ⟨slug, _, rfl⟩ := h.name
  exact candidate_of_name h.isNum slug

theorem firstSays_of_unique {field : Str → Option Str} {num line : Str} {ls rest : List Str}
    (key : Str) (hkey : ∀ l n, field l = some n → key <+: l)
    (honly : ls.filter (fun l => key.isPrefixOf l) = [line]) (hline : field line = some num) :
    FirstSays field num (ls ++ rest) := by
  have hfilter : ls.filterMap field = (ls.filter fun l => key.isPrefixOf l).filterMap field := by
    rw [List.filterMap_filter]
    refine List.filterMap_congr fun l _ => ?_
    by_cases hl : key.isPrefixOf l = true
    · rw [if_pos hl]
    · rw [if_neg hl]
      cases hf : field l with
      | none => rfl
      | some n => exact absurd (List.isPrefixOf_iff_prefix.mpr (hkey l n hf)) hl
  rw [FirstSays, List.filterMap_append, hfilter, honly]
  simp [hline]

theorem fieldOf_key {a b key l n : Str} (hkey : key <+: a) (h : fieldOf a b l = some n) : key <+: l :=
  (hkey.trans (List.prefix_append ..)).trans ((fieldOf_eq_some a b l n).mp h).2

theorem HasHeader.firstSays {body num : Str} (hnum : IsNum num) (h : HasHeader body num) :
    FirstSays rfdField num (lines body) ∧ FirstSays titleField num (lines body) := by
  obtain ⟨block, rest, hlines, -, hrfd, title, htitle, hstart⟩ := h.block
  have skip : ∀ field : Str → Option Str, field "---".toList = none →
      FirstSays field num (block ++ "---".toList :: rest) → FirstSays field num (lines body) := by
    intro field hfence hsays
    rwa [FirstSays, hlines, List.filterMap_cons, hfence]
  refine ⟨skip _ (by decide) (firstSays_of_unique "rfd:".toList ?_ hrfd ?_),
    skip _ (by decide) (firstSays_of_unique "title:".toList ?_ htitle ?_)⟩
  · exact fun l n => fieldOf_key ⟨" \"".toList, by decide⟩
  · exact (fieldOf_eq_some ..).mpr ⟨hnum, by rw [List.append_assoc]⟩
  · exact fun l n => fieldOf_key ⟨" \"RFD ".toList, by decide⟩
  · exact (fieldOf_eq_some ..).mpr ⟨hnum, by rwa [List.append_assoc] at hstart⟩

theorem mem_findall_of_row {U : Unicode} {old num line text : Str} (hnum : IsNum num)
    (hline : line ∈ lines text) (hrow : IsAliasRow U old num line) : num ∈ findall aliasRe text := by
  obtain ⟨-, first, second, rest, hcells, -, hsecond⟩ := hrow
  have hcell : second <:+: line := infix_of_mem_splitOn '|' (by rw [hcells]; simp)
  have hwithin : "RFD ".toList ++ num <:+: text :=
    hsecond ▸ (strip_isInfix second).trans (hcell.trans (infix_of_mem_splitOn '\n' hline))
  obtain ⟨pre, post, htext⟩ := hwithin
  exact (mem_findall_aliasRe text num).mpr ⟨hnum, pre, post, by rw [← htext]; simp⟩

theorem exists_of_mem_file {t : Tree} {p : Path} {bytes : List UInt8} (hp : p ≠ [])
    (h : (p, Entry.file bytes) ∈ t.entries) :
    t.find? p = some (.file bytes) ∧ t.exists p = true ∧ t.read p = .ok bytes := by
  have hfind := (find?_eq_some_iff t hp _).mpr h
  exact ⟨hfind, by simp [Tree.exists, hfind], (read_eq_ok_iff t p bytes).mpr hfind⟩

theorem Conforming.clean {U : Unicode} {c : Checkout} (h : Conforming U c) {d : Name}
    (hdir : c.tree.isdir [rfd, d] = true) : Clean c.tree d := by
  obtain ⟨num, hname⟩ := h.folders d hdir
  obtain ⟨bytes, hmem, hheader⟩ := h.headers d num hdir hname
  obtain ⟨-, hexists, hread⟩ := exists_of_mem_file (by simp [indexOf]) hmem
  obtain ⟨hfm, hti⟩ := hheader.firstSays hname.isNum
  refine ⟨?_, hname.numOf_eq ▸ hname.org, hexists, decodeIgnore bytes,
    (readIgnore_eq_ok ..).mpr ⟨bytes, hread, rfl⟩, ?_, ?_⟩
  · obtain ⟨slug, hslug, rfl⟩ := hname.name
    obtain ⟨m, hm, -⟩ := first_dirRe_of_name hname.isNum hslug
    rw [hm]
    rfl
  · rw [search_FM_RE, hname.numOf_eq]
    exact hfm
  · rw [search_TITLE_RE, hname.numOf_eq]
    exact hti

theorem Conforming.links {U : Unicode} {c : Checkout} (h : Conforming U c)
    (hrfd : c.tree.isdir [rfd] = true) : linkPass c = .ok [] := by
  rw [linkPass_eq_nil_iff c hrfd]
  intro cur f e hpre hmem hne hmd
  obtain hdir | ⟨bytes, hbytes⟩ := h.readable _ hmem
  · exact absurd hdir hne
  · obtain rfl : e = .file bytes := hbytes
    refine ⟨bytes, (exists_of_mem_file (by simp) hmem).2.2, fun name hname => ?_⟩
    obtain ⟨href, pre, post, hbody⟩ := (mem_findall_linkRe _ _).mp hname
    exact (h.pages cur f bytes hpre hmem hmd).2 pre name post hbody href

theorem check_accepts (U : Unicode) (c : Checkout) (h : Conforming U c) : check U c = .ok [] := by
  obtain ⟨d₀, hd₀⟩ := h.folder
  have hrfd : c.tree.isdir [rfd] = true := by
    have hparent := c.tree.closed _ ((isdir_iff c.tree (by simp)).mp hd₀)
    exact (isdir_iff c.tree (by simp)).mpr (hparent.resolve_left (by simp))
  have folder : ∀ d ∈ candidates c.tree, c.tree.isdir [rfd, d] = true ∧ ∃ num, FolderName d num :=
    fun d hd => ⟨((mem_candidates c.tree d).mp hd).1, h.folders d ((mem_candidates c.tree d).mp hd).1⟩
  refine (check_eq_nil_iff U c).mpr ⟨hrfd, ?_, fun d hd => h.clean (folder d hd).1, ?_, ?_,
    h.links hrfd, ?_⟩
  · intro hnil
    obtain ⟨num, hname⟩ := h.folders d₀ hd₀
    have hmem : d₀ ∈ candidates c.tree := (mem_candidates ..).mpr ⟨hd₀, hname.candidate⟩
    rw [hnil] at hmem
    cases hmem
  · refine List.Nodup.map_on ?_ (nodup_candidates c.tree)
    intro d hd d' hd' heq
    obtain ⟨hdir, num, hname⟩ := folder d hd
    obtain ⟨hdir', num', hname'⟩ := folder d' hd'
    rw [hname.numOf_eq, hname'.numOf_eq] at heq
    exact h.distinct d d' num hdir hdir' hname (heq ▸ hname')
  · rw [citePass_eq_nil_iff]
    exact fun cur f bytes hmem _ hne hme => h.uncited cur f bytes hmem hne hme
  · obtain ⟨bytes, text, hmem, hdecode, hrows⟩ := h.aliases
    obtain ⟨-, hexists, hread⟩ := exists_of_mem_file (by simp) hmem
    refine (aliasPass_eq_nil_iff ..).mpr ⟨hexists, text,
      (readStrict_eq_ok ..).mpr ⟨bytes, hread, hdecode⟩, fun num hnum => ?_⟩
    rcases (mem_seenOf ..).mp hnum with ⟨d, hd, rfl⟩ | hnone
    · obtain ⟨hdir, num, hname⟩ := folder d hd
      obtain ⟨old, line, hline, hrow⟩ := hrows d num hdir hname
      rw [hname.numOf_eq]
      exact mem_findall_of_row hname.isNum hline hrow
    · exact absurd hnone (not_mem_empty _)

theorem linked_isdir {d : Name} (h : linkedTree.isdir [rfd, d] = true) : d = firstSlug ∨ d = secondSlug := by
  have hmem := (isdir_iff linkedTree (by simp)).mp h
  simp only [linkedTree, indexOf, List.mem_cons, Prod.mk.injEq, List.cons.injEq, reduceCtorEq,
    and_false, and_true, true_and, false_or, or_false, List.not_mem_nil] at hmem
  exact hmem

theorem linked_file {cur : Path} {f : Name} {bytes : List UInt8}
    (h : (cur ++ [f], Entry.file bytes) ∈ linkedTree.entries) :
    (cur = [rfd, firstSlug] ∧ bytes = ascii firstLinked) ∨ (cur = [rfd, secondSlug] ∧ bytes = ascii secondLinked) ∨
      (cur = [] ∧ f = aliasesMd) := by
  simp only [linkedTree, List.mem_cons, Prod.mk.injEq, reduceCtorEq, and_false, false_or,
    Entry.file.injEq, List.not_mem_nil, or_false] at h
  rcases h with ⟨hp, hbytes⟩ | ⟨hp, hbytes⟩ | ⟨hp, -⟩
  · exact Or.inl ⟨(List.append_inj' (show cur ++ [f] = [rfd, firstSlug] ++ _ from hp) rfl).1, hbytes⟩
  · exact Or.inr (Or.inl ⟨(List.append_inj' (show cur ++ [f] = [rfd, secondSlug] ++ _ from hp) rfl).1, hbytes⟩)
  · obtain ⟨hcur, hf⟩ := List.append_inj' (show cur ++ [f] = [] ++ _ from hp) rfl
    exact Or.inr (Or.inr ⟨hcur, (List.cons.inj hf).1⟩)

theorem linked_num {num : Str} :
    (FolderName firstSlug num → num = "2001".toList) ∧ (FolderName secondSlug num → num = "2002".toList) := by
  constructor
  · intro h
    rw [← h.numOf_eq]
    decide
  · intro h
    rw [← h.numOf_eq]
    decide

/-- All that the gate would take for a link to a folder is one. -/
theorem linked_pages {text : Str} (h : ∀ name ∈ findall linkRe text, linkedTree.isdir [rfd, name] = true) :
    ∀ pre name post, text = pre ++ ("](../".toList ++ (name ++ '/' :: post)) → IsFolderRef name →
      linkedTree.isdir [rfd, name] = true :=
  fun pre name post htext href => h name ((mem_findall_linkRe ..).mpr ⟨href, pre, post, htext⟩)

theorem linked_aliases :
    IsAliasRow .ascii "0001".toList "2001".toList "| RFD 0001 | RFD 2001 |".toList ∧
      IsAliasRow .ascii "0002".toList "2002".toList "| RFD 0002 | RFD 2002 |".toList :=
  ⟨⟨⟨"001".toList, rfl, by decide, by decide⟩, " RFD 0001 ".toList, " RFD 2001 ".toList, [[]],
      by decide, by decide, by decide⟩,
    ⟨⟨"002".toList, rfl, by decide, by decide⟩, " RFD 0002 ".toList, " RFD 2002 ".toList, [[]],
      by decide, by decide, by decide⟩⟩

theorem linked_header :
    HasHeader (decodeIgnore (ascii firstLinked)) "2001".toList ∧
      HasHeader (decodeIgnore (ascii secondLinked)) "2002".toList :=
  ⟨⟨["title: \"RFD 2001: A slug\"".toList, "rfd: \"2001\"".toList],
      ["See [b](../2002-b-slug/index.md), the".toList,
        "[list](../index.md) and/or [b](../../rfd/2002-b-slug/index.md).".toList, []],
      by decide +kernel, by decide, by decide, _, rfl, by decide⟩,
    ⟨["rfd: \"2002\"".toList, "title: \"RFD 2002: B slug\"".toList],
      ["See [a](../2001-a-slug/index.md).".toList, []],
      by decide +kernel, by decide, by decide, _, rfl, by decide⟩⟩

theorem check_accepts_linked : check .ascii linkedCheckout = .ok [] := by
  refine check_accepts .ascii linkedCheckout
    { folder := ⟨firstSlug, by decide⟩, folders := ?_, distinct := ?_, headers := ?_,
      pages := ?_, aliases := ?_, readable := ?_, uncited := ?_ }
  · intro d hd
    rcases linked_isdir hd with rfl | rfl
    · exact ⟨"2001".toList, ⟨by decide, by decide⟩, by decide, "a-slug".toList, ⟨by decide, by decide⟩, by decide⟩
    · exact ⟨"2002".toList, ⟨by decide, by decide⟩, by decide, "b-slug".toList, ⟨by decide, by decide⟩, by decide⟩
  · intro d d' num hd hd' hname hname'
    rcases linked_isdir hd with rfl | rfl <;> rcases linked_isdir hd' with rfl | rfl
    · rfl
    · exact absurd ((linked_num.1 hname).symm.trans (linked_num.2 hname')) (by decide)
    · exact absurd ((linked_num.2 hname).symm.trans (linked_num.1 hname')) (by decide)
    · rfl
  · intro d num hd hname
    rcases linked_isdir hd with rfl | rfl
    · obtain rfl := linked_num.1 hname
      exact ⟨ascii firstLinked, by simp [linkedCheckout, linkedTree], linked_header.1⟩
    · obtain rfl := linked_num.2 hname
      exact ⟨ascii secondLinked, by simp [linkedCheckout, linkedTree], linked_header.2⟩
  · intro cur f bytes hpre hmem _
    rcases linked_file hmem with ⟨rfl, hbytes⟩ | ⟨rfl, hbytes⟩ | ⟨rfl, -⟩
    · rw [hbytes]
      exact ⟨⟨_, rfl⟩, linked_pages (by decide +kernel)⟩
    · rw [hbytes]
      exact ⟨⟨_, rfl⟩, linked_pages (by decide +kernel)⟩
    · exact absurd hpre (by decide)
  · refine ⟨ascii "| RFD 0001 | RFD 2001 |\n| RFD 0002 | RFD 2002 |\n".toList,
      "| RFD 0001 | RFD 2001 |\n| RFD 0002 | RFD 2002 |\n".toList,
      by simp [linkedCheckout, linkedTree], by decide +kernel, ?_⟩
    intro d num hd hname
    rcases linked_isdir hd with rfl | rfl
    · obtain rfl := linked_num.1 hname
      exact ⟨_, _, by decide, linked_aliases.1⟩
    · obtain rfl := linked_num.2 hname
      exact ⟨_, _, by decide, linked_aliases.2⟩
  · intro e he
    simp only [linkedCheckout, linkedTree, List.mem_cons, List.not_mem_nil, or_false] at he
    rcases he with rfl | rfl | rfl | rfl | rfl | rfl <;> simp
  · intro cur f bytes hmem hne _ num hcites
    have hnone : findall (OLD_CITE_RE .ascii) (decodeIgnore (ascii firstLinked)) = [] ∧
        findall (OLD_CITE_RE .ascii) (decodeIgnore (ascii secondLinked)) = [] := by
      decide +kernel
    rcases linked_file hmem with ⟨rfl, hbytes⟩ | ⟨rfl, hbytes⟩ | ⟨-, hf⟩
    · rw [← mem_findall_oldCiteRe, hbytes, hnone.1] at hcites
      cases hcites
    · rw [← mem_findall_oldCiteRe, hbytes, hnone.2] at hcites
      cases hcites
    · exact hne hf

end CheckRfdNumbers
