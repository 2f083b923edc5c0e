import FabricManuals.CheckRfdNumbers.Model

/-! # What the gate's patterns match

One characterisation for each pattern of the script, in terms of the text around
the place it matches at.  The two header patterns are read line by line. -/
set_option autoImplicit false

namespace CheckRfdNumbers

open Lines TextFile Backtrack FileTree OrderedDict PosixPath

structure IsNum (num : Str) : Prop where
  length : num.length = 4
  hex : ∀ c ∈ num, isHex c = true

structure IsSlugText (slug : Str) : Prop where
  ne_nil : slug ≠ []
  chars : ∀ c ∈ slug, isSlug c = true

def LineStart (before : Str) : Prop := before = [] ∨ before.head? = some '\n'

instance (before : Str) : Decidable (LineStart before) := inferInstanceAs (Decidable (_ ∨ _))

theorem lineStart_iff (before : Str) :
    (before.isEmpty || before.head? == some '\n') = true ↔ LineStart before := by
  simp [LineStart, List.isEmpty_iff]

/-! ## Header fields -/

theorem mem_run_fieldRe (a b before after : Str) (d : Cursor Char) :
    d ∈ (fieldRe a b).run ⟨before, after, none⟩ ↔
      LineStart before ∧ ∃ num, IsNum num ∧
        Advances ⟨before, after, none⟩ d (a ++ (num ++ b)) ∧ d.group = some num := by
  simp only [fieldRe, run_concat_cons, run_concat_nil, List.mem_flatMap, List.mem_singleton, bol,
    mem_run_look, lineStart_iff, mem_run_lit, mem_run_capture, mem_run_times_set]
  constructor
  · intro h
    obtain ⟨_, ⟨hb, rfl⟩, e, ⟨ha, -⟩, _, ⟨f, ⟨num, hlen, hhex, hnum, -⟩, rfl⟩, d, ⟨hclose, hg⟩,
      rfl⟩ := h
    have hfg : Advances e f num := hnum
    rw [hfg.consumedBy] at hg
    have hclose' : Advances f d b := hclose
    exact ⟨hb, num, ⟨hlen, hhex⟩, ha.trans (hfg.trans hclose'), hg⟩
  · intro h
    obtain ⟨hb, num, hnum, hadv, hg⟩ := h
    obtain ⟨e, heg, ha, hrest⟩ := hadv.split none
    obtain ⟨f, hfg, hf, hclose⟩ := hrest.split (some num)
    refine ⟨_, ⟨hb, rfl⟩, e, ⟨ha, heg⟩, f, ⟨{ f with group := none }, ?_, ?_⟩, d, ⟨hclose, ?_⟩, rfl⟩
    · exact ⟨num, hnum.length, hnum.hex, hf, heg.symm⟩
    · have : Advances e { f with group := none } num := hf
      rw [this.consumedBy, ← hfg]
    · rw [hg, hfg]

def fieldOf (opening closing line : Str) : Option Str :=
  let num := (line.drop opening.length).take 4
  if opening.isPrefixOf line && num.length == 4 && num.all isHex &&
    closing.isPrefixOf (line.drop (opening.length + 4)) then some num else none

theorem fieldOf_eq_some (a b line num : Str) :
    fieldOf a b line = some num ↔ IsNum num ∧ (a ++ (num ++ b)) <+: line := by
  simp only [fieldOf, Option.ite_none_right_eq_some, Option.some.injEq, Bool.and_eq_true,
    List.isPrefixOf_iff_prefix, beq_iff_eq, List.all_eq_true]
  constructor
  · intro h
    obtain ⟨⟨⟨⟨hopen, hlen⟩, hhex⟩, hclose⟩, rfl⟩ := h
    obtain ⟨rest, rfl⟩ := hopen
    rw [← List.drop_drop, List.drop_left] at hclose
    rw [List.drop_left] at hlen hhex ⊢
    refine ⟨⟨hlen, hhex⟩, ?_⟩
    rw [List.prefix_append_right_inj]
    nth_rewrite 2 [← List.take_append_drop 4 rest]
    rwa [List.prefix_append_right_inj]
  · intro h
    obtain ⟨hnum, rest, rfl⟩ := h
    have htake : ((a ++ (num ++ b) ++ rest).drop a.length).take 4 = num := by
      rw [List.append_assoc, List.drop_left, List.append_assoc, ← hnum.length, List.take_left]
    rw [htake, ← List.drop_drop, List.append_assoc, List.drop_left, List.append_assoc,
      ← hnum.length, List.drop_left]
    exact ⟨⟨⟨⟨List.prefix_append .., rfl⟩, hnum.hex⟩, List.prefix_append ..⟩, rfl⟩

theorem IsNum.no_newline {num : Str} (h : IsNum num) : '\n' ∉ num := by
  intro hmem
  exact absurd (h.hex _ hmem) (by decide)

theorem IsNum.unique {num num' : Str} (h : IsNum num) (h' : IsNum num') (rest rest' : Str)
    (e : num ++ rest = num' ++ rest') : num = num' :=
  (List.append_inj e (h.length.trans h'.length.symm)).1

theorem first_fieldRe {a b : Str} (han : '\n' ∉ a) (hbn : '\n' ∉ b) {before : Str}
    (hb : LineStart before) (after : Str) :
    (first (fieldRe a b) before after).map groupOf = fieldOf a b (firstLine '\n' after) := by
  have hstart : ∀ num, IsNum num →
      ((a ++ (num ++ b)) <+: firstLine '\n' after ↔ (a ++ (num ++ b)) <+: after) := fun num hnum =>
    (prefix_firstLine '\n' _ after (by simp [han, hbn, hnum.no_newline])).symm
  have hfound : ∀ d, first (fieldRe a b) before after = some d →
      ∃ num, groupOf d = num ∧ IsNum num ∧ after = a ++ (num ++ b) ++ d.after := by
    intro d hd
    obtain ⟨_, num, hnum, hadv, hg⟩ := (mem_run_fieldRe a b before after d).mp (first_mem hd)
    exact ⟨num, by rw [groupOf, hg]; rfl, hnum, hadv.1⟩
  ext num
  rw [Option.map_eq_some_iff, fieldOf_eq_some]
  constructor
  · intro h
    obtain ⟨d, hd, rfl⟩ := h
    obtain ⟨num, rfl, hnum, hafter⟩ := hfound d hd
    exact ⟨hnum, (hstart _ hnum).mpr ⟨d.after, hafter.symm⟩⟩
  · intro h
    obtain ⟨hnum, hline⟩ := h
    obtain ⟨rest, hrest⟩ := (hstart _ hnum).mp hline
    have hsome : (first (fieldRe a b) before after).isSome := by
      rw [first_isSome_iff]
      refine ⟨⟨(a ++ (num ++ b)).reverse ++ before, rest, some num⟩, ?_⟩
      exact (mem_run_fieldRe ..).mpr ⟨hb, num, hnum, ⟨hrest.symm, rfl⟩, rfl⟩
    obtain ⟨d, hd⟩ := Option.isSome_iff_exists.mp hsome
    obtain ⟨num', hg, hnum', hafter⟩ := hfound d hd
    refine ⟨d, hd, hg.trans (hnum'.unique hnum (b ++ d.after) (b ++ rest) ?_)⟩
    rw [← hrest] at hafter
    simpa using hafter.symm

theorem first_fieldRe_inside {a b before : Str} (hb : ¬ LineStart before) (after : Str) :
    first (fieldRe a b) before after = none := by
  rw [first_eq_none_iff]
  intro d hd
  exact hb ((mem_run_fieldRe a b before after d).mp hd).1

theorem fieldOf_nil {a b : Str} (ha : a ≠ []) : fieldOf a b [] = none := by
  have : a.isPrefixOf ([] : Str) = false := by cases a <;> simp_all
  simp [fieldOf, this]

/-- The header search reads the text line by line: from a line start it takes the
first line that carries the field, from inside a line it starts at the next. -/
theorem searchFrom_fieldRe {a b : Str} (ha : a ≠ []) (han : '\n' ∉ a) (hbn : '\n' ∉ b) :
    ∀ (after before : Str), (searchFrom (fieldRe a b) before after).map groupOf =
      ((if LineStart before then lines after else (lines after).tail).filterMap
        (fieldOf a b)).head? := by
  intro after
  induction after with
  | nil =>
      intro before
      have hlines : lines [] = [[]] := rfl
      by_cases hb : LineStart before
      · rw [searchFrom, first_fieldRe han hbn hb, if_pos hb]
        simp [hlines, firstLine, fieldOf_nil ha]
      · rw [searchFrom, first_fieldRe_inside hb, if_neg hb, hlines]
        rfl
  | cons c rest ih =>
      intro before
      have hnext : ((if LineStart (c :: before) then lines rest else (lines rest).tail).filterMap
          (fieldOf a b)).head? = ((lines (c :: rest)).tail.filterMap (fieldOf a b)).head? := by
        by_cases hc : c = '\n'
        · subst hc
          rw [if_pos (show LineStart ('\n' :: before) from Or.inr rfl), lines, lines, splitOn_newline,
            List.tail_cons]
        · rw [if_neg (by simpa [LineStart] using hc), lines, lines, splitOn_cons '\n' hc,
            List.tail_cons]
      by_cases hb : LineStart before
      · have hfirst := first_fieldRe han hbn hb (c :: rest)
        rw [if_pos hb, show lines (c :: rest) = _ from splitOn_eq_cons '\n' _, List.filterMap_cons, ← hfirst, searchFrom]
        cases hd : first (fieldRe a b) before (c :: rest) with
        | some d => simp
        | none => simpa [lines] using (ih (c :: before)).trans hnext
      · rw [if_neg hb, searchFrom, first_fieldRe_inside hb]
        exact (ih (c :: before)).trans hnext

/-- The header field the gate compares: the first line of the text that has one. -/
theorem search_fieldRe {a b : Str} (ha : a ≠ []) (han : '\n' ∉ a) (hbn : '\n' ∉ b) (body : Str) :
    (search (fieldRe a b) body).map groupOf = ((lines body).filterMap (fieldOf a b)).head? := by
  rw [search, searchFrom_fieldRe ha han hbn, if_pos (show LineStart [] from Or.inl rfl)]

/-- A name `NNNN-slug`; `$` also lets one newline stand at its end. -/
theorem mem_run_dirRe (d : Name) (m : Cursor Char) :
    m ∈ DIR_RE.run ⟨[], d, none⟩ ↔
      ∃ num slug, IsNum num ∧ IsSlugText slug ∧
        Advances ⟨[], d, none⟩ m (num ++ ('-' :: slug)) ∧ m.group = some num ∧
        (m.after = [] ∨ m.after = ['\n']) := by
  simp only [DIR_RE, run_concat_cons, run_concat_nil, List.mem_flatMap, List.mem_singleton, bos,
    eos, mem_run_look, mem_run_lit, mem_run_capture, mem_run_times_set, mem_run_plus_set,
    List.isEmpty_iff, Bool.or_eq_true, beq_iff_eq]
  constructor
  · intro h
    obtain ⟨_, ⟨-, rfl⟩, _, ⟨e, ⟨num, hlen, hhex, hnum, -⟩, rfl⟩, f, ⟨hdash, hf⟩, g, ⟨slug, hne,
      hchars, hslug, hg⟩, _, ⟨hend, rfl⟩, rfl⟩ := h
    have hnum' : Advances ⟨[], d, none⟩ e num := hnum
    have hdash' : Advances e f ['-'] := hdash
    rw [hnum'.consumedBy] at hf
    exact ⟨num, slug, ⟨hlen, hhex⟩, ⟨hne, hchars⟩, hnum'.trans (hdash'.trans hslug), hg.trans hf, hend⟩
  · intro h
    obtain ⟨num, slug, hnum, hslug, hadv, hg, hend⟩ := h
    obtain ⟨e, heg, he, hrest⟩ := hadv.split none
    obtain ⟨f, hfg, hf, hlast⟩ := Advances.split (v := ['-']) hrest (some num)
    refine ⟨_, ⟨trivial, rfl⟩, _, ⟨e, ⟨num, hnum.length, hnum.hex, he, heg⟩, rfl⟩, f, ⟨hf, ?_⟩, m,
      ⟨slug, hslug.ne_nil, hslug.chars, hlast, hg.trans hfg.symm⟩, m, ⟨hend, rfl⟩, rfl⟩
    rw [he.consumedBy, hfg]

theorem first_dirRe {d : Name} {m : Cursor Char} (h : first DIR_RE [] d = some m) :
    ∃ slug tail, IsNum (groupOf m) ∧ IsSlugText slug ∧ d = groupOf m ++ '-' :: slug ++ tail ∧
      (tail = [] ∨ tail = ['\n']) := by
  obtain ⟨num, slug, hnum, hslug, hadv, hg, hend⟩ := (mem_run_dirRe d m).mp (first_mem h)
  have hnum' : groupOf m = num := by rw [groupOf, hg]; rfl
  exact ⟨slug, m.after, hnum' ▸ hnum, hslug, hnum' ▸ hadv.1, hend⟩

theorem first_dirRe_of_name {num slug : Str} (hnum : IsNum num) (hslug : IsSlugText slug) :
    ∃ m, first DIR_RE [] (num ++ '-' :: slug) = some m ∧ groupOf m = num := by
  have hsome : (first DIR_RE [] (num ++ '-' :: slug)).isSome := by
    rw [first_isSome_iff]
    refine ⟨⟨(num ++ '-' :: slug).reverse, [], some num⟩, (mem_run_dirRe _ _).mpr ?_⟩
    exact ⟨num, slug, hnum, hslug, ⟨by simp, by simp⟩, rfl, Or.inl rfl⟩
  obtain ⟨m, hm⟩ := Option.isSome_iff_exists.mp hsome
  obtain ⟨slug', tail, hnum', _, hd, _⟩ := first_dirRe hm
  refine ⟨m, hm, (hnum.unique hnum' ('-' :: slug) ('-' :: slug' ++ tail) ?_).symm⟩
  simpa using hd

theorem candidateRe_isSome_iff (d : Name) :
    (first candidateRe [] d).isSome ↔
      ∃ w rest, w.length = 4 ∧ (∀ c ∈ w, isAlnum c = true) ∧ d = w ++ '-' :: rest := by
  rw [first_isSome_iff]
  simp only [candidateRe, run_concat_cons, run_concat_nil, List.mem_flatMap, List.mem_singleton, bos,
    mem_run_look, mem_run_lit, mem_run_times_set]
  constructor
  · intro h
    obtain ⟨_, _, ⟨-, rfl⟩, e, ⟨w, hlen, hall, hw, -⟩, f, ⟨hdash, -⟩, -⟩ := h
    have htrans := hw.trans (w := ['-']) hdash
    exact ⟨w, f.after, hlen, hall, by simpa using htrans.1⟩
  · intro h
    obtain ⟨w, rest, hlen, hall, rfl⟩ := h
    exact ⟨_, _, ⟨rfl, rfl⟩, ⟨w.reverse, '-' :: rest, none⟩, ⟨w, hlen, hall, ⟨rfl, by simp⟩, rfl⟩,
      ⟨'-' :: w.reverse, rest, none⟩, ⟨⟨rfl, rfl⟩, rfl⟩, rfl⟩

theorem isAlnum_of_isHex {c : Char} (h : isHex c = true) : isAlnum c = true := by
  simp only [isHex, isAlnum, isDigit, isLower, isUpper, Bool.or_eq_true, Bool.and_eq_true,
    decide_eq_true_eq] at h ⊢
  rcases h with h | ⟨hlo, hhi⟩
  · exact Or.inl (Or.inl h)
  · exact Or.inl (Or.inr ⟨hlo, le_trans hhi (by decide)⟩)

theorem candidate_of_name {num : Str} (hnum : IsNum num) (slug : Str) :
    (first candidateRe [] (num ++ '-' :: slug)).isSome :=
  (candidateRe_isSome_iff _).mpr
    ⟨num, slug, hnum.length, fun c hc => isAlnum_of_isHex (hnum.hex c hc), rfl⟩

/-! ## Citations, links, aliases -/

structure IsOldNum (U : Unicode) (num : Str) : Prop where
  zero : ∃ w, num = '0' :: w ∧ w.length = 3 ∧ ∀ c ∈ w, U.decimal c = true

def boundaryBefore (U : Unicode) (before : Str) : Prop := before.head?.any U.word = false

def boundaryAfter (U : Unicode) (after : Str) : Prop := after.head?.any U.word = false

theorem mem_run_oldCiteRe (U : Unicode) (before after : Str) (d : Cursor Char) :
    d ∈ (OLD_CITE_RE U).run ⟨before, after, none⟩ ↔
      boundaryBefore U before ∧ ∃ num, IsOldNum U num ∧
        Advances ⟨before, after, none⟩ d ("RFD ".toList ++ num) ∧ d.group = some num ∧
        boundaryAfter U d.after := by
  have hR : U.word 'R' = true := by rw [U.word_ascii 'R' (by decide)]; decide
  simp only [OLD_CITE_RE, run_concat_cons, run_concat_nil, List.mem_flatMap, List.mem_singleton,
    wordBoundary, mem_run_look, mem_run_lit, mem_run_capture, mem_run_times_set]
  constructor
  · intro h
    obtain ⟨_, ⟨hb, rfl⟩, e, ⟨hrfd, -⟩, _, ⟨g, ⟨f, ⟨hzero, -⟩, g, ⟨w, hlen, hall, hw, -⟩, rfl⟩,
      rfl⟩, _, ⟨ha, rfl⟩, rfl⟩ := h
    have hnum : Advances e g ('0' :: w) := Advances.trans (v := "0".toList) hzero hw
    have hrfd' : Advances ⟨before, after, none⟩ e "RFD ".toList := hrfd
    have hhead : after.head? = some 'R' := by rw [show after = _ from hrfd'.1]; rfl
    have hlast : g.before.head?.any U.word = true := by
      have hwne : w ≠ [] := by rintro rfl; simp at hlen
      obtain ⟨x, l, hx⟩ := List.exists_cons_of_ne_nil (List.reverse_ne_nil_iff.mpr hwne)
      have hxw : x ∈ w := List.mem_reverse.mp (hx ▸ List.mem_cons_self ..)
      rw [hw.2, hx]
      exact U.word_of_decimal x (hall x hxw)
    refine ⟨?_, '0' :: w, ⟨w, rfl, hlen, hall⟩, hrfd'.trans hnum, ?_, ?_⟩
    · simpa [boundaryBefore, hhead, hR] using hb
    · rw [show e.consumedBy g = '0' :: w from hnum.consumedBy]
    · simpa [boundaryAfter, hlast] using ha
  · intro h
    obtain ⟨hb, num, ⟨w, rfl, hlen, hall⟩, hadv, hg, ha⟩ := h
    have hhead : after.head? = some 'R' := by rw [show after = _ from hadv.1]; rfl
    obtain ⟨e, heg, he, hrest⟩ := hadv.split none
    obtain ⟨f, hfg, hf, hlast⟩ := Advances.split (v := "0".toList) hrest none
    have hwhole : Advances e { d with group := none } ('0' :: w) := hrest
    have hlastWord : d.before.head?.any U.word = true := by
      have hwne : w ≠ [] := by rintro rfl; simp at hlen
      obtain ⟨x, l, hx⟩ := List.exists_cons_of_ne_nil (List.reverse_ne_nil_iff.mpr hwne)
      have hxw : x ∈ w := List.mem_reverse.mp (hx ▸ List.mem_cons_self ..)
      rw [hlast.2, hx]
      exact U.word_of_decimal x (hall x hxw)
    refine ⟨_, ⟨?_, rfl⟩, e, ⟨he, heg⟩, d, ⟨{ d with group := none }, ⟨f, ⟨hf, hfg.trans heg.symm⟩,
      { d with group := none }, ⟨w, hlen, hall, hlast, hfg.symm⟩, rfl⟩, ?_⟩, d, ⟨?_, rfl⟩, rfl⟩
    · simpa [hhead, hR, boundaryBefore] using hb
    · rw [hwhole.consumedBy, ← hg]
    · simpa [hlastWord, boundaryAfter] using ha

theorem IsOldNum.no_R {U : Unicode} {num : Str} (h : IsOldNum U num) : 'R' ∉ num := by
  obtain ⟨w, rfl, _, hall⟩ := h.zero
  have hR : U.decimal 'R' = false := by rw [U.decimal_ascii 'R' (by decide)]; decide
  rw [List.mem_cons, not_or]
  refine ⟨by decide, fun hmem => ?_⟩
  rw [hall 'R' hmem] at hR
  cases hR

/-- The text `num` is cited in the old form somewhere in `s`, as a word. -/
def Cites (U : Unicode) (s num : Str) : Prop :=
  ∃ pre post, s = pre ++ ("RFD ".toList ++ num ++ post) ∧ IsOldNum U num ∧
    boundaryBefore U pre.reverse ∧ boundaryAfter U post

theorem mem_findall_oldCiteRe (U : Unicode) (s num : Str) :
    num ∈ findall (OLD_CITE_RE U) s ↔ Cites U s num := by
  rw [mem_findall_iff (a := 'R') fun before num w rest =>
    w = "RFD ".toList ++ num ∧ IsOldNum U num ∧ boundaryBefore U before ∧ boundaryAfter U rest]
  · constructor
    · intro h
      obtain ⟨pre, _, post, rfl, rfl, hnum, hb, ha⟩ := h
      exact ⟨pre, post, rfl, hnum, hb, ha⟩
    · intro h
      obtain ⟨pre, post, rfl, hnum, hb, ha⟩ := h
      exact ⟨pre, _, post, rfl, rfl, hnum, hb, ha⟩
  · intro before after d
    rw [mem_run_oldCiteRe]
    constructor
    · intro h
      obtain ⟨hb, num, hnum, hadv, hg, ha⟩ := h
      exact ⟨num, _, ⟨rfl, hnum, hb, ha⟩, hadv, hg⟩
    · intro h
      obtain ⟨num, _, ⟨rfl, hnum, hb, ha⟩, hadv, hg⟩ := h
      exact ⟨hb, num, hnum, hadv, hg, ha⟩
  · rintro before num _ rest ⟨rfl, hnum, _⟩
    refine ⟨"FD ".toList ++ num, rfl, ?_⟩
    rw [List.mem_append, not_or]
    exact ⟨by decide, hnum.no_R⟩
  · rintro before num num' _ _ rest rest' ⟨rfl, h, _⟩ ⟨rfl, h', _⟩ heq
    obtain ⟨w, rfl, hlen, _⟩ := h.zero
    obtain ⟨w', rfl, hlen', _⟩ := h'.zero
    rw [List.append_assoc, List.append_assoc] at heq
    exact (List.append_inj (List.append_cancel_left heq) (by simp [hlen, hlen'])).1

structure IsFolderRef (name : Str) : Prop where
  parts : ∃ w slug, name = w ++ '-' :: slug ∧ w.length = 4 ∧ (∀ c ∈ w, isAlnum c = true) ∧
    IsSlugText slug

theorem IsFolderRef.char {name : Str} (h : IsFolderRef name) :
    ∀ c ∈ name, isAlnum c = true ∨ isSlug c = true := by
  obtain ⟨w, slug, rfl, _, hw, hslug⟩ := h.parts
  intro c hc
  rcases List.mem_append.mp hc with hc | hc
  · exact Or.inl (hw c hc)
  · rcases List.mem_cons.mp hc with rfl | hc
    · exact Or.inr (by decide)
    · exact Or.inr (hslug.chars c hc)

theorem IsFolderRef.not_mem {name : Str} (h : IsFolderRef name) {c : Char}
    (hc : isAlnum c = false ∧ isSlug c = false) : c ∉ name := by
  intro hmem
  rcases h.char c hmem with h | h
  · rw [hc.1] at h; cases h
  · rw [hc.2] at h; cases h

theorem mem_run_linkRe (before after : Str) (d : Cursor Char) :
    d ∈ linkRe.run ⟨before, after, none⟩ ↔
      ∃ name w, (w = "](../".toList ++ (name ++ "/".toList) ∧ IsFolderRef name) ∧
        Advances ⟨before, after, none⟩ d w ∧ d.group = some name := by
  simp only [linkRe, run_concat_cons, run_concat_nil, List.mem_flatMap, List.mem_singleton,
    mem_run_lit, mem_run_capture, mem_run_times_set, mem_run_plus_set]
  constructor
  · intro h
    obtain ⟨e, ⟨hopen, -⟩, _, ⟨g, ⟨f, ⟨w, hlen, hall, hw, -⟩, f', ⟨hdash, -⟩, g, ⟨slug, hne,
      hchars, hslug, -⟩, rfl⟩, rfl⟩, d, ⟨hclose, hg⟩, rfl⟩ := h
    have hname : Advances e g (w ++ ('-' :: slug)) := hw.trans (Advances.trans (v := "-".toList) hdash hslug)
    have hclose' : Advances g d "/".toList := hclose
    rw [hname.consumedBy] at hg
    exact ⟨_, _, ⟨rfl, ⟨w, slug, rfl, hlen, hall, hne, hchars⟩⟩, hopen.trans (hname.trans hclose'), hg⟩
  · intro h
    obtain ⟨_, _, ⟨rfl, ⟨w, slug, rfl, hlen, hall, hslug⟩⟩, hadv, hg⟩ := h
    obtain ⟨e, heg, he, hrest⟩ := hadv.split none
    obtain ⟨g, hgg, hname, hclose⟩ := hrest.split (some (w ++ '-' :: slug))
    obtain ⟨f, hfg, hf, hrest'⟩ := hname.split none
    obtain ⟨f', hfg', hf', hlast⟩ := Advances.split (v := "-".toList) hrest' none
    have hname' : Advances e { g with group := none } (w ++ '-' :: slug) := hname
    refine ⟨e, ⟨he, heg⟩, g, ⟨{ g with group := none }, ⟨f, ⟨w, hlen, hall, hf, hfg.trans heg.symm⟩,
      f', ⟨hf', hfg'.trans hfg.symm⟩, { g with group := none },
      ⟨slug, hslug.ne_nil, hslug.chars, hlast, hfg'.symm⟩, rfl⟩, ?_⟩, d, ⟨hclose, hg.trans hgg.symm⟩, rfl⟩
    rw [hname'.consumedBy, ← hgg]

theorem append_slash_inj {a b x y : Str} (ha : '/' ∉ a) (hb : '/' ∉ b)
    (h : a ++ '/' :: x = b ++ '/' :: y) : a = b := by
  have hsplit := congrArg PosixPath.split h
  rw [split, split, List.splitOn_append_cons_self_of_not_mem ha,
    List.splitOn_append_cons_self_of_not_mem hb] at hsplit
  exact (List.cons.inj hsplit).1

theorem mem_findall_linkRe (s name : Str) :
    name ∈ findall linkRe s ↔
      IsFolderRef name ∧ ∃ pre post, s = pre ++ ("](../".toList ++ (name ++ '/' :: post)) := by
  rw [mem_findall_iff (a := ']') (fun _ name w _ =>
    w = "](../".toList ++ (name ++ "/".toList) ∧ IsFolderRef name) mem_run_linkRe]
  · constructor
    · intro h
      obtain ⟨pre, _, post, rfl, rfl, hname⟩ := h
      exact ⟨hname, pre, post, by simp⟩
    · intro h
      obtain ⟨hname, pre, post, rfl⟩ := h
      exact ⟨pre, _, post, by simp, rfl, hname⟩
  · rintro before name _ rest ⟨rfl, hname⟩
    refine ⟨"(../".toList ++ (name ++ "/".toList), rfl, ?_⟩
    simp only [List.mem_append, not_or]
    exact ⟨by decide, hname.not_mem (by decide), by decide⟩
  · rintro before name name' _ _ rest rest' ⟨rfl, h⟩ ⟨rfl, h'⟩ heq
    simp only [List.append_assoc] at heq
    exact append_slash_inj (h.not_mem (by decide)) (h'.not_mem (by decide))
      (List.append_cancel_left heq)

theorem mem_findall_aliasRe (s num : Str) :
    num ∈ findall aliasRe s ↔
      IsNum num ∧ ∃ pre post, s = pre ++ ("RFD ".toList ++ (num ++ post)) := by
  rw [mem_findall_iff (a := 'R') fun _ num w _ => w = "RFD ".toList ++ num ∧ IsNum num]
  · constructor
    · intro h
      obtain ⟨pre, _, post, rfl, rfl, hnum⟩ := h
      exact ⟨hnum, pre, post, by rw [List.append_assoc]⟩
    · intro h
      obtain ⟨hnum, pre, post, rfl⟩ := h
      exact ⟨pre, _, post, by rw [List.append_assoc], rfl, hnum⟩
  · intro before after d
    simp only [aliasRe, run_concat_cons, run_concat_nil, List.mem_flatMap, List.mem_singleton,
      mem_run_lit, mem_run_capture, mem_run_times_set]
    constructor
    · intro h
      obtain ⟨e, ⟨hrfd, -⟩, _, ⟨f, ⟨num, hlen, hhex, hnum, -⟩, rfl⟩, rfl⟩ := h
      refine ⟨num, _, ⟨rfl, hlen, hhex⟩, hrfd.trans hnum, ?_⟩
      rw [hnum.consumedBy]
    · intro h
      obtain ⟨num, _, ⟨rfl, hnum⟩, hadv, hg⟩ := h
      obtain ⟨e, heg, he, hlast⟩ := hadv.split none
      have hlast' : Advances e { d with group := none } num := hlast
      refine ⟨e, ⟨he, heg⟩, d, ⟨{ d with group := none },
        ⟨num, hnum.length, hnum.hex, hlast, heg.symm⟩, ?_⟩, rfl⟩
      rw [hlast'.consumedBy, ← hg]
  · rintro before num _ rest ⟨rfl, hnum⟩
    refine ⟨"FD ".toList ++ num, rfl, ?_⟩
    rw [List.mem_append, not_or]
    exact ⟨by decide, fun h => absurd (hnum.hex _ h) (by decide)⟩
  · rintro before num num' _ _ rest rest' ⟨rfl, h⟩ ⟨rfl, h'⟩ heq
    rw [List.append_assoc, List.append_assoc] at heq
    exact (List.append_inj (List.append_cancel_left heq) (h.length.trans h'.length.symm)).1

end CheckRfdNumbers
