import FabricManuals.CheckRfdNumbers.Soundness

/-! # Which old citations a silent gate rules out

The walk rules out one spelling, `RFD 0ddd` with a single space, in every file it
opens.  What passes are the other spellings, and any spelling in a file it leaves out. -/
set_option autoImplicit false

namespace CheckRfdNumbers

open TextFile Backtrack FileTree OrderedDict PosixPath

theorem check_rejects_cited (U : Unicode) (c : Checkout) (h : check U c = .ok [])
    (cur : Path) (f : Name) (bytes : List UInt8)
    (file : (cur ++ [f], Entry.file bytes) ∈ c.tree.entries)
    (visited : skipped (c.root ++ cur) = false) (notAliases : f ≠ aliasesMd)
    (notScript : c.root ++ (cur ++ [f]) ≠ c.me) (num : Str) :
    ¬ Cites U (decodeIgnore bytes) num := by
  obtain ⟨-, -, -, -, hcite, -⟩ := (check_eq_nil_iff U c).mp h
  exact (citePass_eq_nil_iff U c).mp hcite cur f bytes file visited notAliases notScript num

/-- `num` is cited in `s`: the word RFD, white space and the number as a word, or the
path form. -/
def CitesRetired (U : Unicode) (s num : Str) : Prop :=
  IsOldNum U num ∧
    ((∃ pre space post, s = pre ++ ("RFD".toList ++ (space ++ (num ++ post))) ∧ space ≠ [] ∧
        (∀ c ∈ space, isSpace c = true) ∧ boundaryBefore U pre.reverse ∧ boundaryAfter U post) ∨
      ∃ pre post, s = pre ++ ("rfd/".toList ++ (num ++ post)))

/-- No text file outside the skipped directories of the tree, the root `ALIASES.md`
and the script itself, cites a retired number. -/
def NoRetired (U : Unicode) (c : Checkout) : Prop :=
  ∀ cur f bytes, (cur ++ [f], Entry.file bytes) ∈ c.tree.entries → skipped cur = false →
    cur ++ [f] ≠ [aliasesMd] → c.root ++ (cur ++ [f]) ≠ c.me →
      ∀ num, ¬ CitesRetired U (decodeIgnore bytes) num

/-- A citation that the pattern of the walk has no room for. -/
def CitesUnseen (U : Unicode) (s num : Str) : Prop :=
  IsOldNum U num ∧
    ((∃ pre space post, s = pre ++ ("RFD".toList ++ (space ++ (num ++ post))) ∧ space ≠ [] ∧
        space ≠ " ".toList ∧ (∀ c ∈ space, isSpace c = true) ∧ boundaryBefore U pre.reverse ∧
        boundaryAfter U post) ∨
      ∃ pre post, s = pre ++ ("rfd/".toList ++ (num ++ post)))

/-- Nothing is cited in such a spelling, and nothing in the one of the pattern where the
walk does not look: below a root it skips, and in an `ALIASES.md` that is not the root's. -/
def SeenOnly (U : Unicode) (c : Checkout) : Prop :=
  ∀ cur f bytes, (cur ++ [f], Entry.file bytes) ∈ c.tree.entries → skipped cur = false →
    cur ++ [f] ≠ [aliasesMd] → c.root ++ (cur ++ [f]) ≠ c.me → ∀ num,
      ¬ CitesUnseen U (decodeIgnore bytes) num ∧
        (skipped c.root = true ∨ f = aliasesMd → ¬ Cites U (decodeIgnore bytes) num)

theorem citesRetired_iff (U : Unicode) (s num : Str) :
    CitesRetired U s num ↔ Cites U s num ∨ CitesUnseen U s num := by
  constructor
  · intro h
    obtain ⟨hold, ⟨pre, space, post, hs, hne, hspace, hb, ha⟩ | hpath⟩ := h
    · by_cases hone : space = " ".toList
      · subst hone
        exact Or.inl ⟨pre, post, by rw [hs, List.append_assoc]; rfl, hold, hb, ha⟩
      · exact Or.inr ⟨hold, Or.inl ⟨pre, space, post, hs, hne, hone, hspace, hb, ha⟩⟩
    · exact Or.inr ⟨hold, Or.inr hpath⟩
  · intro h
    obtain ⟨pre, post, hs, hold, hb, ha⟩ | ⟨hold, ⟨pre, space, post, hs, hne, -, hspace, hb, ha⟩ | hpath⟩ := h
    · refine ⟨hold, Or.inl ⟨pre, " ".toList, post, ?_, by decide, by decide, hb, ha⟩⟩
      rw [hs, List.append_assoc]
      rfl
    · exact ⟨hold, Or.inl ⟨pre, space, post, hs, hne, hspace, hb, ha⟩⟩
    · exact ⟨hold, Or.inr hpath⟩

theorem skipped_append (root cur : Path) : skipped (root ++ cur) = (skipped root || skipped cur) := by
  rw [Bool.eq_iff_iff]
  simp only [skipped, List.any_eq_true, List.contains_append, Bool.or_eq_true]
  constructor
  · intro h
    obtain ⟨d, hd, hin⟩ := h
    exact hin.imp (fun hin => ⟨d, hd, hin⟩) fun hin => ⟨d, hd, hin⟩
  · intro h
    rcases h with ⟨d, hd, hin⟩ | ⟨d, hd, hin⟩
    · exact ⟨d, hd, Or.inl hin⟩
    · exact ⟨d, hd, Or.inr hin⟩

/-- Behind a silent gate nothing retired is cited exactly where only what the walk sees
could have been. -/
theorem noRetired_iff (U : Unicode) (c : Checkout) (h : check U c = .ok []) :
    NoRetired U c ↔ SeenOnly U c := by
  constructor
  · intro hnone cur f bytes file hskip haliases hscript num
    have hnot := hnone cur f bytes file hskip haliases hscript num
    rw [citesRetired_iff, not_or] at hnot
    exact ⟨hnot.2, fun _ => hnot.1⟩
  · intro hseen cur f bytes file hskip haliases hscript num hcites
    obtain ⟨hunseen, hunopened⟩ := hseen cur f bytes file hskip haliases hscript num
    rcases (citesRetired_iff ..).mp hcites with hcites | hcites
    · by_cases hopened : skipped c.root = true ∨ f = aliasesMd
      · exact hunopened hopened hcites
      · obtain ⟨hroot, hname⟩ := not_or.mp hopened
        have hvisited : skipped (c.root ++ cur) = false := by
          rw [skipped_append, hskip, Bool.or_false]
          simpa using hroot
        exact check_rejects_cited U c h cur f bytes file hvisited hname hscript num hcites
    · exact hunseen hcites

def zeroAfter (s : Str) : Bool := (s.zip s.tail).any fun p => (isSpace p.1 || p.1 == '/') && p.2 == '0'

theorem zeroAfter_append {x : Char} (hx : isSpace x = true ∨ x = '/') (pre post : Str) :
    zeroAfter (pre ++ x :: '0' :: post) = true := by
  have hmem : (x, '0') ∈ (pre ++ x :: '0' :: post).zip (pre ++ x :: '0' :: post).tail := by
    induction pre with
    | nil => simp
    | cons a rest ih =>
        rw [List.cons_append, List.tail_cons]
        cases hrest : rest ++ x :: '0' :: post with
        | nil => simp at hrest
        | cons b more =>
            rw [hrest, List.tail_cons] at ih
            exact List.mem_cons_of_mem _ ih
  exact List.any_eq_true.mpr ⟨_, hmem, by rcases hx with h | rfl <;> simp [*]⟩

theorem CitesUnseen.zeroAfter {U : Unicode} {s num : Str} (h : CitesUnseen U s num) :
    zeroAfter s = true := by
  obtain ⟨⟨w, rfl, -⟩, ⟨pre, space, post, rfl, hne, -, hspace, -⟩ | ⟨pre, post, rfl⟩⟩ := h
  · have hlast := hspace _ (List.getLast_mem hne)
    have hsplit : pre ++ ("RFD".toList ++ (space ++ ('0' :: w ++ post))) =
        (pre ++ "RFD".toList ++ space.dropLast) ++ space.getLast hne :: '0' :: (w ++ post) := by
      conv_lhs => rw [← List.dropLast_append_getLast hne]
      simp
    rw [hsplit]
    exact zeroAfter_append (Or.inl hlast) ..
  · have hsplit : pre ++ ("rfd/".toList ++ ('0' :: w ++ post)) =
        (pre ++ "rfd".toList) ++ '/' :: '0' :: (w ++ post) := by simp
    rw [hsplit]
    exact zeroAfter_append (Or.inr rfl) ..

theorem seenOnly_of_zeroAfter {U : Unicode} {c : Checkout} (hroot : skipped c.root = false)
    (h : ∀ e ∈ c.tree.entries, e.1 = [aliasesMd] ∨ e.1.getLast? ≠ some aliasesMd ∧
      (readIgnore c.tree e.1).toOption.any zeroAfter = false) : SeenOnly U c := by
  intro cur f bytes file _ haliases _ num
  obtain ⟨hname, hzero⟩ := (h _ file).resolve_left haliases
  have hread : readIgnore c.tree (cur ++ [f]) = .ok (decodeIgnore bytes) :=
    (readIgnore_eq_ok ..).mpr ⟨bytes, (read_eq_ok_iff ..).mpr
      ((find?_eq_some_iff _ (c.tree.plain _ file).1 _).mpr file), rfl⟩
  rw [hread] at hzero
  refine ⟨fun hcites => ?_, fun hopened => ?_⟩
  · have hnone : zeroAfter (decodeIgnore bytes) = false := hzero
    rw [hcites.zeroAfter] at hnone
    cases hnone
  · rcases hopened with hskip | hf
    · exact absurd hskip (by simp [hroot])
    · simp [hf] at hname

theorem noRetired_iff_linked : NoRetired .ascii linkedCheckout :=
  (noRetired_iff .ascii linkedCheckout linked_passes).mpr (seenOnly_of_zeroAfter (by decide) (by decide +kernel))

theorem not_noRetired {U : Unicode} {c : Checkout} {num : Str} (f : Name) (bytes : List UInt8)
    (file : ([f], Entry.file bytes) ∈ c.tree.entries) (notAliases : f ≠ aliasesMd)
    (notScript : c.root ++ [f] ≠ c.me) (cited : CitesRetired U (decodeIgnore bytes) num) :
    ¬ NoRetired U c :=
  fun h => h [] f bytes file rfl (by simpa using notAliases) notScript num cited

/-- A wrapped citation, one in path form and one in an `ALIASES.md` further down. -/
def citingTree : Tree where
  entries := cleanTree.entries ++
    [(["wrapped.md".toList], .file (ascii "see RFD\n0021 for this\n".toList)),
      (["path.md".toList], .file (ascii "see rfd/0021 for this\n".toList)),
      (["old".toList], .dir),
      (["old".toList, aliasesMd], .file (ascii "see RFD 0021 for this\n".toList))]
  nodup := by decide
  plain := by decide
  closed := by decide

/-- A plain citation in a tree that is itself checked out below a `_site` directory. -/
def sitedTree : Tree where
  entries := cleanTree.entries ++
    [(["note.md".toList], .file (ascii "see RFD 0021 for this\n".toList))]
  nodup := by decide
  plain := by decide
  closed := by decide

def citingCheckout : Checkout := ⟨["tmp".toList], ["check-rfd-numbers.py".toList], citingTree⟩
def sitedCheckout : Checkout := ⟨["_site".toList], ["check-rfd-numbers.py".toList], sitedTree⟩

theorem cites_of_decode {bytes : List UInt8} {s num : Str} (hdecode : decodeIgnore bytes = s)
    (h : CitesRetired .ascii s num) : CitesRetired .ascii (decodeIgnore bytes) num := hdecode ▸ h

theorem retired_citations_pass :
    (check .ascii citingCheckout = .ok [] ∧
      CitesRetired .ascii "see RFD\n0021 for this\n".toList "0021".toList ∧
      CitesRetired .ascii "see rfd/0021 for this\n".toList "0021".toList ∧
      ¬ NoRetired .ascii citingCheckout) ∧
    (check .ascii sitedCheckout = .ok [] ∧ ¬ NoRetired .ascii sitedCheckout) := by
  have hold : IsOldNum .ascii "0021".toList := ⟨"021".toList, rfl, by decide, by decide⟩
  have spaced : ∀ space : Str, space ≠ [] → (∀ c ∈ space, isSpace c = true) →
      CitesRetired .ascii ("see ".toList ++ ("RFD".toList ++ (space ++ ("0021".toList ++
        " for this\n".toList)))) "0021".toList := fun space hne hspace =>
    ⟨hold, Or.inl ⟨_, space, _, rfl, hne, hspace, by unfold boundaryBefore; decide,
      by unfold boundaryAfter; decide⟩⟩
  have wrapped : CitesRetired .ascii "see RFD\n0021 for this\n".toList "0021".toList :=
    spaced "\n".toList (by decide) (by decide)
  have plain : CitesRetired .ascii "see RFD 0021 for this\n".toList "0021".toList :=
    spaced " ".toList (by decide) (by decide)
  refine ⟨⟨by decide +kernel, wrapped, ?_, ?_⟩, by decide +kernel, ?_⟩
  · exact ⟨hold, Or.inr ⟨"see ".toList, " for this\n".toList, by decide⟩⟩
  · exact not_noRetired "wrapped.md".toList (ascii "see RFD\n0021 for this\n".toList)
      (by simp [citingCheckout, citingTree]) (by decide) (by decide)
      (cites_of_decode (by decide +kernel) wrapped)
  · exact not_noRetired "note.md".toList (ascii "see RFD 0021 for this\n".toList)
      (by simp [sitedCheckout, sitedTree]) (by decide) (by decide)
      (cites_of_decode (by decide +kernel) plain)

end CheckRfdNumbers
