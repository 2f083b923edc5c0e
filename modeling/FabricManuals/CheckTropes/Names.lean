import FabricManuals.CheckTropes.EmDashes
import FabricManuals.Lib.LargerAlphabet

/-! # Files the gate fails to scan

The listing quotes unusual paths, grep then looks for a file of the quoted name and its
error is thrown away, and awk takes `name=value` for an assignment.  A file behind such
a name is never scanned, and the gate passes; so it does where grep takes for binary what
matches. -/
set_option autoImplicit false

namespace CheckTropes

open TextFile Backtrack

def Verbatim (name : Name) : Prop := name.any unusual = false

instance (name : Name) : Decidable (Verbatim name) := inferInstanceAs (Decidable (_ = _))

def HasTell (L : Locale) (text : Str) : Prop := (Lines.records '\n' text).any (hasTell L) = true

/-- Some pattern matches the line; a byte that is part of no character is in no set of it. -/
def matchesLine (L : Locale) (line : Contents) : Bool :=
  (rules L).any fun rule => (search ((rule.regex L).over Option.isSome (·.getD nul)) line).isSome

def Matched (L : Locale) (contents : Contents) : Prop :=
  ∃ line ∈ Lines.records (some '\n') contents, matchesLine L line = true

/-- Grep prints a line, as it does of what it does not take for binary. -/
def Printed (L : Locale) (c : Checkout) (contents : Contents) : Prop :=
  (printable c contents).any (hasTell L) = true

/-- The em-dashes on prose lines that are no list items. -/
def plainDashes (L : Locale) (text : Str) : Nat :=
  proseFrom L (fun line => !isItem L line) none ((Lines.records '\n' text).flatMap linesOf)

/-- A line that matches a pattern, or twenty em-dashes. -/
def Bad (L : Locale) (contents : Contents) : Prop :=
  Matched L contents ∨ emDashMax ≤ plainDashes L (awkText contents)

/-- The gate fails where a tracked file is bad. -/
def Sound (L : Locale) (c : Checkout) : Prop :=
  (∃ name ∈ c.tracked, ∃ contents, c.work name = some contents ∧ Bad L contents) → exitStatus L c = 1

/-- A file that the tool which flags it opens under its own name. -/
def Caught (L : Locale) (c : Checkout) : Prop :=
  ∃ name ∈ c.tracked, Verbatim name ∧ ∃ contents, c.work name = some contents ∧
    (Printed L c contents ∨ (isAssignment name = false ∧ emDashMax ≤ emDashes L (awkText contents)))

/-- What is read in the place of a file happens to be flagged: a file of the quoted
name, or the standard input. -/
def Accident (L : Locale) (c : Checkout) : Prop :=
  ∃ name ∈ c.tracked,
    (¬ Verbatim name ∧ ∃ contents, c.work (quotePath name) = some contents ∧
      (Printed L c contents ∨ emDashMax ≤ emDashes L (awkText contents))) ∨
    (Verbatim name ∧ isAssignment name = true ∧ emDashMax ≤ c.stray name)

theorem mapM_id_map_some (line : Str) : (line.map some).mapM id = some line := by
  induction line with
  | nil => rfl
  | cons a line ih =>
      rw [List.map_cons, List.mapM_cons, ih]
      rfl

theorem map_some_of_mapM_id : ∀ {line : Contents} {text : Str}, line.mapM id = some text →
    line = text.map some := by
  intro line
  induction line with
  | nil =>
      intro text h
      obtain rfl := Option.some.inj h
      rfl
  | cons o line ih =>
      intro text h
      rw [List.mapM_cons] at h
      cases o with
      | none => cases h
      | some a =>
          cases hrest : line.mapM id with
          | none =>
              rw [hrest] at h
              cases h
          | some rest =>
              rw [hrest] at h
              obtain rfl := Option.some.inj h
              rw [ih hrest]
              rfl

@[simp] theorem awkText_text (text : Str) : awkText (text.map some) = text := by
  rw [awkText, List.map_map]
  exact List.map_id text

theorem records_text (text : Str) :
    Lines.records (some '\n') (text.map some) = (Lines.records '\n' text).map (List.map some) :=
  Lines.records_map '\n' (fun _ _ => Option.some.inj) text

theorem printable_text (c : Checkout) {text : Str} (h : nul ∉ text) :
    printable c (text.map some) = Lines.records '\n' text := by
  have hnone : some nul ∉ text.map some := by simpa using h
  have hread : ∀ ls : List Str, (ls.map (List.map some)).filterMap (fun line => line.mapM id) = ls := by
    intro ls
    induction ls with
    | nil => rfl
    | cons l ls ih => rw [List.map_cons, List.filterMap_cons_some (mapM_id_map_some l), ih]
  rw [printable]
  simp only [if_neg hnone, records_text, hread]

theorem printed_text (L : Locale) (c : Checkout) {text : Str} (h : nul ∉ text) :
    Printed L c (text.map some) ↔ HasTell L text := by
  rw [Printed, printable_text c h, HasTell]

theorem matchesLine_text (L : Locale) (line : Str) : matchesLine L (line.map some) = hasTell L line := by
  unfold matchesLine hasTell fires
  congr 1
  funext rule
  rw [search_over (fun _ => rfl) (fun _ => rfl), Option.isSome_map]

theorem Printed.matched {L : Locale} {c : Checkout} {contents : Contents} (h : Printed L c contents) :
    Matched L contents := by
  obtain ⟨text, htext, htell⟩ := List.any_eq_true.mp h
  obtain ⟨line, hline, hread⟩ := List.mem_filterMap.mp htext
  refine ⟨line, ?_, ?_⟩
  · split at hline
    · exact (List.takeWhile_prefix _).subset (List.take_subset _ _ hline)
    · exact hline
  · rw [map_some_of_mapM_id hread, matchesLine_text]
    exact htell

theorem quotePath_verbatim {name : Name} (h : Verbatim name) : quotePath name = name := by
  rw [quotePath, if_neg (by simp [show name.any unusual = false from h])]

theorem quotePath_quoted {name : Name} (h : ¬ Verbatim name) :
    ∃ rest, quotePath name = 0x22 :: rest := by
  have hany : name.any unusual = true := by simpa [Verbatim] using h
  exact ⟨_, by rw [quotePath, if_pos hany]⟩

theorem isAssignment_quoted (rest : Name) : isAssignment (0x22 :: rest) = false := by
  simp [isAssignment, isNameStart]

theorem exitStatus_eq_one_iff (L : Locale) (c : Checkout) :
    exitStatus L c = 1 ↔ ∃ name ∈ c.tracked,
      scan L c (quotePath name) = true ∨ emDashMax ≤ awkCount L c (quotePath name) := by
  have hfound : found L c = true ↔ ∃ name ∈ c.tracked,
      scan L c (quotePath name) = true ∨ emDashMax ≤ awkCount L c (quotePath name) := by
    simp only [found, files, Bool.or_eq_true, List.any_eq_true, List.mem_map, decide_eq_true_eq,
      exists_exists_and_eq_and]
    constructor
    · intro h
      rcases h with ⟨name, hname, h⟩ | ⟨name, hname, h⟩
      · exact ⟨name, hname, Or.inl h⟩
      · exact ⟨name, hname, Or.inr h⟩
    · intro h
      obtain ⟨name, hname, h⟩ := h
      exact h.imp (fun h => ⟨name, hname, h⟩) fun h => ⟨name, hname, h⟩
  unfold exitStatus
  by_cases hfiles : files c = []
  · have hnone : c.tracked = [] := List.map_eq_nil_iff.mp hfiles
    rw [if_pos hfiles]
    simp [hnone]
  · rw [if_neg hfiles, ← hfound]
    cases found L c <;> simp

theorem scan_eq_true_iff (L : Locale) (c : Checkout) (file : Name) :
    scan L c file = true ↔ ∃ contents, c.work file = some contents ∧ Printed L c contents := by
  unfold scan Printed
  cases c.work file <;> simp

theorem awkCount_flagged_iff (L : Locale) (c : Checkout) {file : Name} (h : isAssignment file = false) :
    emDashMax ≤ awkCount L c file ↔
      ∃ contents, c.work file = some contents ∧ emDashMax ≤ emDashes L (awkText contents) := by
  rw [awkCount, h, if_neg (by simp)]
  cases c.work file with
  | none => simp [emDashMax]
  | some contents => simp

theorem flagged_iff (L : Locale) (c : Checkout) (name : Name) :
    (scan L c (quotePath name) = true ∨ emDashMax ≤ awkCount L c (quotePath name)) ↔
      (Verbatim name ∧ ∃ contents, c.work name = some contents ∧
        (Printed L c contents ∨ (isAssignment name = false ∧ emDashMax ≤ emDashes L (awkText contents)))) ∨
      (¬ Verbatim name ∧ ∃ contents, c.work (quotePath name) = some contents ∧
        (Printed L c contents ∨ emDashMax ≤ emDashes L (awkText contents))) ∨
      (Verbatim name ∧ isAssignment name = true ∧ emDashMax ≤ c.stray name) := by
  rw [scan_eq_true_iff]
  by_cases hname : Verbatim name
  · rw [quotePath_verbatim hname]
    cases hassign : isAssignment name with
    | true =>
        rw [awkCount, if_pos hassign]
        simp [hname]
    | false =>
        rw [awkCount_flagged_iff L c hassign]
        simp only [hname, true_and, not_true, false_and, Bool.false_eq_true, or_false, and_or_left,
          exists_or]
  · obtain ⟨rest, hrest⟩ := quotePath_quoted hname
    have hassign : isAssignment (quotePath name) = false := by rw [hrest, isAssignment_quoted]
    rw [awkCount_flagged_iff L c hassign]
    simp only [hname, false_and, not_false_eq_true, true_and, false_or, or_false, and_or_left, exists_or]

theorem exitStatus_spec (L : Locale) (c : Checkout) : exitStatus L c = 1 ↔ Caught L c ∨ Accident L c := by
  rw [exitStatus_eq_one_iff]
  simp only [flagged_iff, Caught, Accident, and_or_left, exists_or]

/-- The gate can be trusted with a checkout exactly if no tracked file is bad, or one is
opened under its own name and flagged, or something else is flagged in its place. -/
theorem gate_sound_iff (L : Locale) (c : Checkout) :
    Sound L c ↔
      (∀ name ∈ c.tracked, ∀ contents, c.work name = some contents → ¬ Bad L contents) ∨ Caught L c ∨
        Accident L c := by
  unfold Sound
  rw [exitStatus_spec]
  constructor
  · intro h
    by_cases hbad : ∃ name ∈ c.tracked, ∃ contents, c.work name = some contents ∧ Bad L contents
    · exact Or.inr (h hbad)
    · left
      intro name hname contents hcontents hb
      exact hbad ⟨name, hname, contents, hcontents, hb⟩
  · intro h hbad
    obtain ⟨name, hname, contents, hcontents, hb⟩ := hbad
    rcases h with h | h
    · exact absurd hb (h name hname contents hcontents)
    · exact h

def accented : Name := [0xC3, 0xA9, 0x2E, 0x6D, 0x64]

def delving : Contents := "We delve.\n".toList.map some

def stained : Contents := "We delve ".toList.map some ++ [none, some '\n']

def oneTracked (name : Name) (contents : Contents) : Checkout where
  tracked := [name]
  work other := if other = name then some contents else none
  stray _ := 0
  ahead _ := 0
  present := by simp

theorem matched_delving : Matched .posix delving :=
  ⟨"We delve.".toList.map some, by decide, by decide +kernel⟩

theorem matched_stained : Matched .posix stained :=
  ⟨"We delve ".toList.map some ++ [none], by decide, by decide +kernel⟩

theorem accented_file_passes :
    (exitStatus .posix (oneTracked accented delving) = 0 ∧ Matched .posix delving) ∧
      (exitStatus .posix (oneTracked (ascii "a.md".toList) stained) = 0 ∧ Matched .posix stained) ∧
      ¬ ∀ (L : Locale) (c : Checkout), Sound L c := by
  have hpass : exitStatus .posix (oneTracked accented delving) = 0 := by decide +kernel
  refine ⟨⟨hpass, matched_delving⟩, ⟨by decide +kernel, matched_stained⟩, fun h => ?_⟩
  have hexit := h .posix (oneTracked accented delving) ⟨accented, by simp [oneTracked], delving,
    by simp [oneTracked], Or.inl matched_delving⟩
  rw [hpass] at hexit
  cases hexit

end CheckTropes
