import FabricManuals.CheckTropes.Names
import FabricManuals.CheckTropes.Tells
import FabricManuals.Lib.Lines
import Mathlib.Data.Option.Basic
import Mathlib.Logic.Relation

/-! # The verdict and the wrapping of paragraphs

The gate reads line by line, so it misses a tell with a line break in it, and it takes
the start of a line for the start of a sentence.  Re-wrapping of text files that keeps
clear of both changes nothing. -/
set_option autoImplicit false

namespace CheckTropes

open TextFile Backtrack

section Wrapping
variable (L : Locale)

/-- A line that begins with a list marker, a heading mark or a code fence. -/
def Marked (line : Str) : Prop := isFence line = true ∨ isHeading L line = true ∨ isItem L line = true

instance (line : Str) : Decidable (Marked L line) := inferInstanceAs (Decidable (_ ∨ _ ∨ _))

/-- Two lines of a paragraph, and the line they make together. -/
structure Paragraph (l₁ l₂ : Str) : Prop where
  line₁ : '\n' ∉ l₁
  line₂ : '\n' ∉ l₂
  words₁ : l₁.all L.space = false
  words₂ : l₂.all L.space = false
  prose₁ : ¬ Marked L l₁
  prose₂ : ¬ Marked L l₂
  prose : ¬ Marked L (l₁ ++ ' ' :: l₂)

/-- The second text is the first with a space of one paragraph replaced by a line break. -/
inductive Break (ok : Str → Str → Prop) : Str → Str → Prop
  | mk {a l₁ l₂ b : Str} (before : Lines.WholeLines '\n' a) (behind : Lines.AtLineEnd '\n' b)
      (paragraph : Paragraph L l₁ l₂) (allowed : ok l₁ l₂) :
      Break ok (a ++ ((l₁ ++ ' ' :: l₂) ++ b)) (a ++ (l₁ ++ '\n' :: (l₂ ++ b)))

def Rewrap (ok : Str → Str → Prop) : Str → Str → Prop := Relation.EqvGen (Break L ok)

variable {L}

theorem Paragraph.ne_nil {l₁ l₂ : Str} (h : Paragraph L l₁ l₂) : l₂ ≠ [] := by
  intro hnil
  have hwords := h.words₂
  rw [hnil] at hwords
  cases hwords

theorem Break.records {ok : Str → Str → Prop} {s s' : Str} (h : Break L ok s s') :
    ∃ pre post l₁ l₂, Paragraph L l₁ l₂ ∧ ok l₁ l₂ ∧
      Lines.records '\n' s = pre ++ (l₁ ++ ' ' :: l₂) :: post ∧
      Lines.records '\n' s' = pre ++ l₁ :: l₂ :: post := by
  obtain ⟨hbefore, hbehind, hpar, hok⟩ := h
  rename_i a l₁ l₂ b
  obtain ⟨pre, hpre⟩ := Lines.records_wholeLines_append '\n' hbefore
  obtain ⟨post, hpost⟩ := Lines.records_line_append '\n' hbehind
  refine ⟨pre, post, l₁, l₂, hpar, hok, ?_, ?_⟩
  · have hline : '\n' ∉ l₁ ++ ' ' :: l₂ := by
      intro hmem
      rcases List.mem_append.mp hmem with hmem | hmem
      · exact hpar.line₁ hmem
      · exact hpar.line₂ ((List.mem_cons.mp hmem).resolve_left (by decide))
    rw [hpre, hpost _ hline (by simp)]
  · rw [hpre, Lines.records_append_newline, Lines.splitOn_of_line '\n' hpar.line₁,
      hpost _ hpar.line₂ hpar.ne_nil]
    rfl

theorem Break.nul_mem {ok : Str → Str → Prop} {s s' : Str} (h : Break L ok s s') : nul ∈ s ↔ nul ∈ s' := by
  obtain ⟨-, -, -, -⟩ := h
  have hblank : nul ≠ ' ' := by decide
  have hbreak : nul ≠ '\n' := by decide
  simp only [List.mem_append, List.mem_cons, hblank, hbreak, false_or, or_assoc]

theorem dashes_join {l₁ l₂ : Str} (h : Paragraph L l₁ l₂) :
    dashes L (l₁ ++ ' ' :: l₂) = dashes L l₁ + dashes L l₂ := by
  have hplain : ∀ line, ¬ Marked L line → dashes L line = line.count '—' := by
    intro line hline
    rw [dashes, if_neg fun hitem => hline (Or.inr (Or.inr hitem))]
  rw [hplain _ h.prose, hplain _ h.prose₁, hplain _ h.prose₂, List.count_append,
    List.count_cons_of_ne (by decide)]

theorem awkLine_prose {line : Str} (h : ¬ Marked L line) (st : Bool × Nat) :
    awkLine L st line = if st.1 then st else (st.1, st.2 + dashes L line) := by
  have hfence : ¬ isFence line = true := fun hf => h (Or.inl hf)
  have hheading : ¬ isHeading L line = true := fun hh => h (Or.inr (Or.inl hh))
  rw [awkLine, if_neg hfence, if_neg hheading]

theorem awkLine_join {l₁ l₂ : Str} (h : Paragraph L l₁ l₂) (st : Bool × Nat) :
    awkLine L st (l₁ ++ ' ' :: l₂) = awkLine L (awkLine L st l₁) l₂ := by
  obtain ⟨fence, total⟩ := st
  rw [awkLine_prose h.prose, awkLine_prose h.prose₁, awkLine_prose h.prose₂, dashes_join h]
  cases fence with
  | true => rfl
  | false => simp only [Bool.false_eq_true, if_false, Nat.add_assoc]

theorem Break.emDashes {ok : Str → Str → Prop} {s s' : Str} (h : Break L ok s s') :
    emDashes L s = emDashes L s' := by
  obtain ⟨pre, post, l₁, l₂, hpar, -, hs, hs'⟩ := h.records
  simp only [CheckTropes.emDashes, hs, hs', List.foldl_append, List.foldl_cons, awkLine_join hpar]

theorem Break.hasTell {s s' : Str} (h : Break L (Clear L) s s') : HasTell L s ↔ HasTell L s' := by
  obtain ⟨pre, post, l₁, l₂, hpar, hclear, hs, hs'⟩ := h.records
  have hitem : ∀ line, ¬ Marked L line → isItem L line = false := by
    intro line hline
    rw [← Bool.not_eq_true]
    exact fun hi => hline (Or.inr (Or.inr hi))
  have hjoin := hasTell_join hclear (hitem _ hpar.prose₁) (hitem _ hpar.prose₂) (hitem _ hpar.prose)
  unfold HasTell
  rw [hs, hs', List.any_append, List.any_append, List.any_cons, List.any_cons, List.any_cons]
  simp only [Bool.or_eq_true, hjoin, or_assoc]

theorem Rewrap.emDashes {ok : Str → Str → Prop} {s s' : Str} (h : Rewrap L ok s s') :
    emDashes L s = emDashes L s' := by
  induction h with
  | rel s s' h => exact h.emDashes
  | refl s => rfl
  | symm s s' _ ih => exact ih.symm
  | trans s s' s'' _ _ ih ih' => exact ih.trans ih'

theorem Rewrap.nul_mem {ok : Str → Str → Prop} {s s' : Str} (h : Rewrap L ok s s') : nul ∈ s ↔ nul ∈ s' := by
  induction h with
  | rel s s' h => exact h.nul_mem
  | refl s => exact Iff.rfl
  | symm s s' _ ih => exact ih.symm
  | trans s s' s'' _ _ ih ih' => exact ih.trans ih'

theorem Rewrap.hasTell {s s' : Str} (h : Rewrap L (Clear L) s s') : HasTell L s ↔ HasTell L s' := by
  induction h with
  | rel s s' h => exact h.hasTell
  | refl s => exact Iff.rfl
  | symm s s' _ ih => exact ih.symm
  | trans s s' s'' _ _ ih ih' => exact ih.trans ih'

variable (L)

/-- The same checkout with the paragraphs of its text files wrapped in another way. -/
structure Rewrapped (ok : Str → Str → Prop) (c c' : Checkout) : Prop where
  tracked : c'.tracked = c.tracked
  stray : c'.stray = c.stray
  ahead : c'.ahead = c.ahead
  work : ∀ name, c'.work name = c.work name ∨ ∃ s s', c.work name = some (s.map some) ∧
    c'.work name = some (s'.map some) ∧ nul ∉ s ∧ Rewrap L ok s s'

variable {L}

theorem Rewrapped.scan {c c' : Checkout} (h : Rewrapped L (Clear L) c c') (file : Name) :
    scan L c file = scan L c' file := by
  unfold CheckTropes.scan
  rcases h.work file with hwork | ⟨s, s', hs, hs', hnul, hwrap⟩
  · have hprintable : printable c' = printable c := by
      unfold printable
      rw [h.ahead]
    rw [hwork, hprintable]
  · have hnul' : nul ∉ s' := fun hmem => hnul (hwrap.nul_mem.mpr hmem)
    rw [hs, hs']
    simp only [printable_text c hnul, printable_text c' hnul']
    exact Bool.eq_iff_iff.mpr hwrap.hasTell

theorem Rewrapped.awkCount {c c' : Checkout} {ok : Str → Str → Prop} (h : Rewrapped L ok c c')
    (file : Name) : awkCount L c file = awkCount L c' file := by
  unfold CheckTropes.awkCount
  rw [h.stray]
  rcases h.work file with hwork | ⟨s, s', hs, hs', -, hwrap⟩
  · rw [hwork]
  · rw [hs, hs']
    simp only [awkText_text, hwrap.emDashes]

theorem Rewrapped.exitStatus {c c' : Checkout} (h : Rewrapped L (Clear L) c c') :
    exitStatus L c = exitStatus L c' := by
  have hfiles : files c' = files c := by rw [files, files, h.tracked]
  have hscan : CheckTropes.scan L c = CheckTropes.scan L c' := funext h.scan
  have hcount : CheckTropes.awkCount L c = CheckTropes.awkCount L c' := funext h.awkCount
  rw [CheckTropes.exitStatus, CheckTropes.exitStatus, found, found, hfiles, hscan, hcount]

/-- A tell within a line is reported wherever it stands in the line. -/
theorem exitStatus_of_tell {c : Checkout} {name : Name} {text line p w q : Str} {rule : Rule}
    (hname : name ∈ c.tracked) (htext : c.work (quotePath name) = some (text.map some)) (hnul : nul ∉ text)
    (hline : line ∈ Lines.records '\n' text) (hrule : rule ∈ rules L)
    (hsplit : line = p ++ (w ++ q)) (htell : Tell L rule p w q) : exitStatus L c = 1 := by
  rw [exitStatus_eq_one_iff]
  refine ⟨name, hname, Or.inl ((scan_eq_true_iff ..).mpr ⟨_, htext, (printed_text L c hnul).mpr ?_⟩)⟩
  refine List.any_eq_true.mpr ⟨line, hline, List.any_eq_true.mpr ⟨rule, hrule, ?_⟩⟩
  exact (fires_iff ..).mpr ⟨p, w, q, hsplit, htell⟩

theorem opening_of_fires {r : Regex Char} {line : Str} (h : fires L (.opening r) line = true) :
    ∃ p w q, line = p ++ (w ++ q) ∧ Takes r p w q ∧
      (p = [] ∨ ∃ p' s t, p = p' ++ [s, t] ∧ stop s = true ∧ L.space t = true) := by
  obtain ⟨p, w, q, hsplit, htell⟩ := (fires_iff ..).mp h
  exact ⟨p, w, q, hsplit, htell.taken, htell.place⟩

variable (L)

/-- The verdict does not depend on the wrapping as long as no break lies in a tell, or
in front of a phrase that has to open a sentence and does not. -/
theorem verdict_rewrap {c c' : Checkout} (h : Rewrapped L (Clear L) c c') :
    exitStatus L c = exitStatus L c' ∧
    (∀ name ∈ c.tracked, ∀ text, c.work (quotePath name) = some (text.map some) → nul ∉ text →
      ∀ line ∈ Lines.records '\n' text, ∀ rule ∈ rules L, ∀ p w q, line = p ++ (w ++ q) →
        Tell L rule p w q → (∀ r, rule = .opening r → p ≠ []) →
          exitStatus L c = 1 ∧ exitStatus L c' = 1) ∧
    (∀ r line, Rule.opening r ∈ rules L → fires L (.opening r) line = true →
      ∃ p w q, line = p ++ (w ++ q) ∧ Takes r p w q ∧
        (p = [] ∨ ∃ p' s t, p = p' ++ [s, t] ∧ stop s = true ∧ L.space t = true)) := by
  refine ⟨h.exitStatus, ?_, fun r line _ hfires => opening_of_fires hfires⟩
  intro name hname text htext hnul line hline rule hrule p w q hsplit htell _
  have hexit := exitStatus_of_tell hname htext hnul hline hrule hsplit htell
  exact ⟨hexit, h.exitStatus.symm.trans hexit⟩

theorem clear_of_clean {l₁ l₂ : Str} (h : hasTell L (l₁ ++ ' ' :: l₂) = false)
    (h₂ : hasTell L l₂ = false) : Clear L l₁ l₂ := by
  have hnone : ∀ line, hasTell L line = false → ∀ rule ∈ rules L, ∀ p w q, line = p ++ (w ++ q) →
      ¬ Tell L rule p w q := by
    intro line hline rule hrule p w q hsplit htell
    rw [← Bool.not_eq_true] at hline
    exact hline (List.any_eq_true.mpr ⟨rule, hrule, (fires_iff ..).mpr ⟨p, w, q, hsplit, htell⟩⟩)
  refine ⟨?_, ?_⟩
  · intro rule hrule p w q hsplit htell
    exact absurd htell (hnone _ h rule hrule p w q hsplit)
  · intro r hr w q hsplit htell
    exact absurd htell (hnone _ h₂ _ hr [] w q hsplit)

end Wrapping

def readme : Name := ascii "README.md".toList

def oneFile (text : Str) : Checkout := oneTracked readme (text.map some)

theorem rewrapped_oneFile {L : Locale} {ok : Str → Str → Prop} {s s' : Str} (hnul : nul ∉ s)
    (h : Rewrap L ok s s') : Rewrapped L ok (oneFile s) (oneFile s') where
  tracked := rfl
  stray := rfl
  ahead := rfl
  work name := by
    by_cases hname : name = readme
    · exact Or.inr ⟨s, s', if_pos hname, if_pos hname, hnul, h⟩
    · left
      simp only [oneFile, oneTracked, if_neg hname]

instance (L : Locale) (l₁ l₂ : Str) : Decidable (Paragraph L l₁ l₂) :=
  decidable_of_iff ('\n' ∉ l₁ ∧ '\n' ∉ l₂ ∧ l₁.all L.space = false ∧ l₂.all L.space = false ∧
      ¬ Marked L l₁ ∧ ¬ Marked L l₂ ∧ ¬ Marked L (l₁ ++ ' ' :: l₂))
    ⟨fun h => ⟨h.1, h.2.1, h.2.2.1, h.2.2.2.1, h.2.2.2.2.1, h.2.2.2.2.2.1, h.2.2.2.2.2.2⟩,
      fun h => ⟨h.1, h.2, h.3, h.4, h.5, h.6, h.7⟩⟩

theorem rewrap_last {L : Locale} {ok : Str → Str → Prop} {a l₁ l₂ : Str} (ha : Lines.WholeLines '\n' a)
    (h : Paragraph L l₁ l₂) (hok : ok l₁ l₂) :
    Rewrap L ok (a ++ (l₁ ++ ' ' :: l₂ ++ ['\n'])) (a ++ (l₁ ++ '\n' :: (l₂ ++ ['\n']))) :=
  .rel _ _ (.mk ha (Or.inr ⟨[], rfl⟩) h hok)

theorem verdict_rewrap_clean :
    exitStatus .posix (oneFile ("We delve.\n".toList ++
        ("One line".toList ++ ' ' :: "and one.".toList ++ ['\n']))) =
      exitStatus .posix (oneFile ("We delve.\n".toList ++
        ("One line".toList ++ '\n' :: ("and one.".toList ++ ['\n'])))) := by
  have hpar : Paragraph .posix "One line".toList "and one.".toList := by
    decide +kernel
  have hclear : Clear .posix "One line".toList "and one.".toList :=
    clear_of_clean .posix (by decide +kernel) (by decide +kernel)
  have hbefore : Lines.WholeLines '\n' "We delve.\n".toList := Or.inr ⟨"We delve.".toList, by decide⟩
  exact (verdict_rewrap .posix (rewrapped_oneFile (by decide) (rewrap_last hbefore hpar hclear))).1

/-- A tell with a line break in it is missed, and the start of a line is taken for the
start of a sentence. -/
theorem wrapping_changes_verdict :
    exitStatus .posix (oneFile "A testament to it.\n".toList) = 1 ∧
    exitStatus .posix (oneFile "A testament\nto it.\n".toList) = 0 ∧
    exitStatus .posix (oneFile "Won in summary form.\n".toList) = 0 ∧
    exitStatus .posix (oneFile "Won\nin summary form.\n".toList) = 1 ∧
    ¬ ∀ (L : Locale) (c c' : Checkout), Rewrapped L (fun _ _ => True) c c' →
      exitStatus L c = exitStatus L c' := by
  have hfound : exitStatus .posix (oneFile "A testament to it.\n".toList) = 1 := by
    decide +kernel
  have hmissed : exitStatus .posix (oneFile "A testament\nto it.\n".toList) = 0 := by
    decide +kernel
  refine ⟨hfound, hmissed, by decide +kernel, by decide +kernel, fun h => ?_⟩
  have hpar : Paragraph .posix "A testament".toList "to it.".toList := by
    decide +kernel
  have hsame := h .posix (oneFile "A testament to it.\n".toList)
    (oneFile "A testament\nto it.\n".toList)
    (rewrapped_oneFile (by decide) (rewrap_last (Or.inl rfl) hpar trivial))
  rw [hfound, hmissed] at hsame
  exact absurd hsame (by decide)

end CheckTropes
