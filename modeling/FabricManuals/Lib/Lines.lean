import Mathlib.Data.List.Basic
import Mathlib.Data.List.Forall2
import Mathlib.Data.List.Infix

/-! # Lines of a text over any alphabet

The lines of `s` are `s.splitOn nl`; the first of them is there even when the text
is empty. -/
set_option autoImplicit false

namespace Lines

section Lines
variable {α : Type} [DecidableEq α] (nl : α)

def firstLine (s : List α) : List α := (s.splitOn nl).headD []

theorem splitOn_newline (s : List α) : (nl :: s).splitOn nl = [] :: s.splitOn nl := by
  simp [List.splitOn_cons_eq_if_modifyHead]

theorem splitOn_cons {c : α} (hc : c ≠ nl) (s : List α) :
    (c :: s).splitOn nl = (c :: firstLine nl s) :: (s.splitOn nl).tail := by
  obtain ⟨l, rest, hl⟩ := List.exists_cons_of_ne_nil (List.splitOn_ne_nil nl s)
  rw [firstLine, hl, List.splitOn_cons_eq_if_modifyHead, if_neg (by simpa using hc), hl]
  rfl

theorem splitOn_eq_cons (s : List α) : s.splitOn nl = firstLine nl s :: (s.splitOn nl).tail := by
  obtain ⟨l, rest, hl⟩ := List.exists_cons_of_ne_nil (List.splitOn_ne_nil nl s)
  rw [firstLine, hl]
  rfl

theorem firstLine_newline (s : List α) : firstLine nl (nl :: s) = [] := by
  rw [firstLine, splitOn_newline]
  rfl

theorem firstLine_cons {c : α} (hc : c ≠ nl) (s : List α) :
    firstLine nl (c :: s) = c :: firstLine nl s := by
  rw [firstLine, splitOn_cons nl hc]
  rfl

theorem firstLine_eq_takeWhile (s : List α) : firstLine nl s = s.takeWhile (· != nl) := by
  induction s with
  | nil => simp [firstLine]
  | cons c rest ih =>
      by_cases hc : c = nl
      · subst hc
        rw [firstLine_newline, List.takeWhile_cons_of_neg (by simp)]
      · rw [firstLine_cons nl hc, ih, List.takeWhile_cons_of_pos (by simpa using hc)]

/-- What holds no newline is a prefix of the text iff it is one of its first line. -/
theorem prefix_firstLine : ∀ (w s : List α), nl ∉ w → (w <+: s ↔ w <+: firstLine nl s) := by
  intro w
  induction w with
  | nil => intro s _; simp
  | cons a w ih =>
      intro s h
      rw [List.mem_cons, not_or] at h
      cases s with
      | nil => exact Iff.rfl
      | cons c s =>
          by_cases hc : c = nl
          · subst hc
            rw [firstLine_newline]
            simp [Ne.symm h.1]
          · rw [firstLine_cons nl hc, List.cons_prefix_cons, List.cons_prefix_cons, ih s h.2]

theorem splitOn_append {w : List α} (hw : nl ∉ w) (s : List α) :
    (w ++ s).splitOn nl = (w ++ firstLine nl s) :: (s.splitOn nl).tail := by
  induction w with
  | nil => exact splitOn_eq_cons nl s
  | cons c w ih =>
      rw [List.mem_cons, not_or] at hw
      rw [List.cons_append, splitOn_cons nl (Ne.symm hw.1), firstLine, ih hw.2]
      rfl

theorem splitOn_append_of_eq {w s l : List α} {tail : List (List α)} (hw : nl ∉ w)
    (h : s.splitOn nl = l :: tail) : (w ++ s).splitOn nl = (w ++ l) :: tail := by
  rw [splitOn_append nl hw, firstLine, h]
  rfl

theorem splitOn_cons_of_eq {c : α} {s l : List α} {tail : List (List α)} (hc : c ≠ nl)
    (h : s.splitOn nl = l :: tail) : (c :: s).splitOn nl = (c :: l) :: tail :=
  splitOn_append_of_eq nl (w := [c]) (by simpa using Ne.symm hc) h

theorem infix_of_mem_splitOn {s piece : List α} (h : piece ∈ s.splitOn nl) : piece <:+: s := by
  induction s generalizing piece with
  | nil => simpa using h
  | cons a rest ih =>
      by_cases ha : a = nl
      · subst ha
        rw [splitOn_newline] at h
        rcases List.mem_cons.mp h with rfl | h
        · exact List.nil_infix
        · exact (ih h).trans (List.suffix_cons a rest).isInfix
      · rw [splitOn_cons nl ha] at h
        rcases List.mem_cons.mp h with rfl | h
        · rw [firstLine_eq_takeWhile]
          exact (List.cons_prefix_cons.mpr ⟨rfl, List.takeWhile_prefix _⟩).isInfix
        · exact (ih (List.mem_of_mem_tail h)).trans (List.suffix_cons a rest).isInfix

theorem mem_iff_splitOn {a : α} (ha : a ≠ nl) (s : List α) : a ∈ s ↔ ∃ l ∈ s.splitOn nl, a ∈ l := by
  induction s with
  | nil => simp
  | cons c rest ih =>
      by_cases hc : c = nl
      · rw [hc, splitOn_newline, List.mem_cons, ih]
        simp [ha]
      · rw [splitOn_cons nl hc, List.mem_cons, ih, splitOn_eq_cons nl rest]
        simp [or_assoc]

/-- The records of a line-based tool: a final newline ends the last line and opens none. -/
def records (s : List α) : List (List α) :=
  if (s.splitOn nl).getLast? = some [] then (s.splitOn nl).dropLast else s.splitOn nl

theorem records_append_newline (a b : List α) :
    records nl (a ++ nl :: b) = a.splitOn nl ++ records nl b := by
  have hne : b.splitOn nl ≠ [] := List.splitOn_ne_nil nl b
  rw [records, records, List.splitOn_append_cons_self, List.getLast?_append_of_ne_nil _ hne]
  split
  · rw [List.dropLast_append_of_ne_nil hne]
  · rfl

theorem splitOn_of_line {l : List α} (hl : nl ∉ l) : l.splitOn nl = [l] := by
  have := splitOn_append nl hl []
  simpa [firstLine] using this

theorem records_of_line {l : List α} (hl : nl ∉ l) (hne : l ≠ []) : records nl l = [l] := by
  rw [records, splitOn_of_line nl hl, if_neg (by simpa using hne)]

def WholeLines (a : List α) : Prop := a = [] ∨ ∃ a', a = a' ++ [nl]

def AtLineEnd (b : List α) : Prop := b = [] ∨ ∃ b', b = nl :: b'

theorem exists_firstLine (s : List α) : ∃ l, nl ∉ l ∧ (s = l ∨ ∃ t, s = l ++ nl :: t) := by
  induction s with
  | nil => exact ⟨[], List.not_mem_nil, Or.inl rfl⟩
  | cons c rest ih =>
      by_cases hc : c = nl
      · exact ⟨[], List.not_mem_nil, Or.inr ⟨rest, by rw [hc]; rfl⟩⟩
      · obtain ⟨l, hl, hrest⟩ := ih
        have hnot : nl ∉ c :: l := by
          rw [List.mem_cons, not_or]
          exact ⟨Ne.symm hc, hl⟩
        rcases hrest with rfl | ⟨t, rfl⟩
        · exact ⟨c :: rest, hnot, Or.inl rfl⟩
        · exact ⟨c :: l, hnot, Or.inr ⟨t, rfl⟩⟩

theorem splitOn_line_append {l : List α} (hl : nl ∉ l) (t : List α) :
    (l ++ nl :: t).splitOn nl = l :: t.splitOn nl := by
  rw [List.splitOn_append_cons_self, splitOn_of_line nl hl, List.singleton_append]

theorem splitOn_eq_cons_iff {s l : List α} {ls : List (List α)} :
    s.splitOn nl = l :: ls ↔
      nl ∉ l ∧ ((s = l ∧ ls = []) ∨ ∃ t, s = l ++ nl :: t ∧ t.splitOn nl = ls) := by
  constructor
  · intro h
    obtain ⟨l', hl', rfl | ⟨t, rfl⟩⟩ := exists_firstLine nl s
    · rw [splitOn_of_line nl hl'] at h
      obtain ⟨rfl, rfl⟩ := List.cons.inj h
      exact ⟨hl', Or.inl ⟨rfl, rfl⟩⟩
    · rw [splitOn_line_append nl hl'] at h
      obtain ⟨rfl, rfl⟩ := List.cons.inj h
      exact ⟨hl', Or.inr ⟨t, rfl, rfl⟩⟩
  · rintro ⟨hl, ⟨rfl, rfl⟩ | ⟨t, rfl, rfl⟩⟩
    · exact splitOn_of_line nl hl
    · exact splitOn_line_append nl hl t

theorem mem_splitOn_iff {s l : List α} :
    l ∈ s.splitOn nl ↔ nl ∉ l ∧ ∃ pre post, s = pre ++ (l ++ post) ∧ WholeLines nl pre ∧ AtLineEnd nl post := by
  constructor
  · intro h
    obtain ⟨a, b, hab⟩ := List.append_of_mem h
    induction a generalizing s with
    | nil =>
        obtain ⟨hl, ⟨rfl, -⟩ | ⟨t, rfl, -⟩⟩ := (splitOn_eq_cons_iff nl).mp hab
        · exact ⟨hl, [], [], by simp, Or.inl rfl, Or.inl rfl⟩
        · exact ⟨hl, [], nl :: t, rfl, Or.inl rfl, Or.inr ⟨t, rfl⟩⟩
    | cons x a ih =>
        obtain ⟨-, ⟨-, hnil⟩ | ⟨t, rfl, ht⟩⟩ := (splitOn_eq_cons_iff nl).mp hab
        · simp at hnil
        · obtain ⟨hl, pre, post, rfl, hpre, hpost⟩ := ih (by rw [ht]; simp) ht
          refine ⟨hl, x ++ nl :: pre, post, by simp, Or.inr ?_, hpost⟩
          rcases hpre with rfl | ⟨p, rfl⟩
          · exact ⟨x, rfl⟩
          · exact ⟨x ++ nl :: p, by simp⟩
  · rintro ⟨hl, pre, post, rfl, hpre, hpost⟩
    have hline : l ∈ (l ++ post).splitOn nl := by
      rcases hpost with rfl | ⟨q, rfl⟩
      · rw [List.append_nil, splitOn_of_line nl hl]
        exact List.mem_singleton.mpr rfl
      · rw [splitOn_line_append nl hl]
        exact List.mem_cons_self
    rcases hpre with rfl | ⟨p, rfl⟩
    · exact hline
    · rw [List.append_assoc, List.singleton_append, List.splitOn_append_cons_self]
      exact List.mem_append_right _ hline

/-- Texts with lines that correspond have records that do. -/
theorem forall₂_records {R : List α → List α → Prop} (hempty : ∀ l l', R l l' → (l = [] ↔ l' = []))
    {s s' : List α} (h : List.Forall₂ R (s.splitOn nl) (s'.splitOn nl)) :
    List.Forall₂ R (records nl s) (records nl s') := by
  have hends : ∀ ls ls', List.Forall₂ R ls ls' →
      (ls.getLast? = some [] ↔ ls'.getLast? = some []) ∧ List.Forall₂ R ls.dropLast ls'.dropLast := by
    intro ls ls' hls
    induction hls with
    | nil => exact ⟨Iff.rfl, .nil⟩
    | @cons l l' ls ls' hl hls ih =>
        cases hls with
        | nil => exact ⟨by simpa using hempty l l' hl, .nil⟩
        | cons hnext hrest => exact ⟨by simpa using ih.1, .cons hl ih.2⟩
  obtain ⟨hlast, hdrop⟩ := hends _ _ h
  unfold records
  by_cases hend : (s.splitOn nl).getLast? = some []
  · rw [if_pos hend, if_pos (hlast.mp hend)]
    exact hdrop
  · rw [if_neg hend, if_neg fun hend' => hend (hlast.mpr hend')]
    exact h

/-- Letters of another alphabet in the place of these, one for each, have the same lines. -/
theorem splitOn_map {β : Type} [DecidableEq β] {f : α → β} (hf : Function.Injective f) (s : List α) :
    (s.map f).splitOn (f nl) = (s.splitOn nl).map (List.map f) := by
  induction s with
  | nil => rfl
  | cons c rest ih =>
      by_cases hc : c = nl
      · rw [hc, List.map_cons, splitOn_newline, splitOn_newline, ih, List.map_cons, List.map_nil]
      · have hfc : f c ≠ f nl := fun h => hc (hf h)
        rw [List.map_cons, splitOn_cons _ hfc, splitOn_cons _ hc, firstLine, ih, splitOn_eq_cons nl rest]
        rfl

theorem records_map {β : Type} [DecidableEq β] {f : α → β} (hf : Function.Injective f) (s : List α) :
    records (f nl) (s.map f) = (records nl s).map (List.map f) := by
  have hlast : ((s.map f).splitOn (f nl)).getLast? = some [] ↔ (s.splitOn nl).getLast? = some [] := by
    rw [splitOn_map nl hf, List.getLast?_map]
    simp
  unfold records
  by_cases hend : (s.splitOn nl).getLast? = some []
  · rw [if_pos hend, if_pos (hlast.mpr hend), splitOn_map nl hf, List.map_dropLast]
  · rw [if_neg hend, if_neg fun h => hend (hlast.mp h), splitOn_map nl hf]

theorem records_line_append {b : List α} (hb : AtLineEnd nl b) :
    ∃ post, ∀ l, nl ∉ l → l ≠ [] → records nl (l ++ b) = l :: post := by
  rcases hb with rfl | ⟨b', rfl⟩
  · refine ⟨[], fun l hl hne => ?_⟩
    rw [List.append_nil, records_of_line nl hl hne]
  · refine ⟨records nl b', fun l hl _ => ?_⟩
    rw [records_append_newline, splitOn_of_line nl hl, List.singleton_append]

theorem records_wholeLines_append {a : List α} (ha : WholeLines nl a) :
    ∃ pre, ∀ s, records nl (a ++ s) = pre ++ records nl s := by
  rcases ha with rfl | ⟨a', rfl⟩
  · exact ⟨[], fun s => rfl⟩
  · refine ⟨a'.splitOn nl, fun s => ?_⟩
    rw [List.append_assoc, List.singleton_append, records_append_newline]

end Lines

theorem prefix_append_cons {α : Type} {a : α} : ∀ {w x y : List α}, a ∉ w → w <+: x ++ a :: y →
    w <+: x := by
  intro w
  induction w with
  | nil => intro x y _ _; exact List.nil_prefix
  | cons b w ih =>
      intro x y ha h
      rw [List.mem_cons, not_or] at ha
      cases x with
      | nil => exact absurd (List.cons_prefix_cons.mp h).1 (Ne.symm ha.1)
      | cons c x =>
          obtain ⟨rfl, hrest⟩ := List.cons_prefix_cons.mp h
          exact List.cons_prefix_cons.mpr ⟨rfl, ih ha.2 hrest⟩

theorem infix_append_cons {α : Type} {a : α} {w x y : List α} (ha : a ∉ w) (h : w <:+: x ++ a :: y) :
    w <:+: x ∨ w <:+: y := by
  rcases List.infix_append_iff.mp h with h | h | ⟨u, v, rfl, hu, hv⟩
  · exact Or.inl h
  · rcases List.infix_cons_iff.mp h with h | h
    · cases w with
      | nil => exact Or.inl List.nil_infix
      | cons b w =>
          obtain ⟨rfl, -⟩ := List.cons_prefix_cons.mp h
          exact absurd (List.mem_cons_self ..) ha
    · exact Or.inr h
  · cases v with
    | nil => exact Or.inl (by simpa using hu.isInfix)
    | cons b v =>
        obtain ⟨rfl, -⟩ := List.cons_prefix_cons.mp hv
        exact absurd (List.mem_append_right _ (List.mem_cons_self ..)) ha

end Lines
