import FabricManuals.ChangelogCreator.Model
import FabricManuals.Lib.Decimal

/-! # Stems as dates

A stem spells a year, a month and a day, and the order of stems as texts is the
order of these dates. -/
set_option autoImplicit false

namespace ChangelogCreator

open TextFile

theorem IsStem.ascii {s : Str} (h : IsStem s) : ∀ c ∈ s, c.toNat < 128 ∧ c ≠ '\r' := by
  intro c hc
  have hdigit := h.digits c hc
  simp only [isDigit, Bool.and_eq_true, decide_eq_true_eq] at hdigit
  refine ⟨lt_of_le_of_lt (show c.toNat ≤ 57 from hdigit.2) (by decide), ?_⟩
  intro h
  subst h
  exact absurd hdigit.1 (by decide)

def year (stem : Str) : Nat := Decimal.value (stem.take 4)
def month (stem : Str) : Nat := Decimal.value ((stem.drop 4).take 2)
def day (stem : Str) : Nat := Decimal.value (stem.drop 6)

def Earlier (a b : Str) : Prop :=
  year a < year b ∨ (year a = year b ∧ (month a < month b ∨ (month a = month b ∧ day a < day b)))

theorem stem_eq_parts (stem : Str) :
    stem = stem.take 4 ++ ((stem.drop 4).take 2 ++ stem.drop 6) := by
  conv_lhs => rw [← List.take_append_drop 4 stem, ← List.take_append_drop 2 (stem.drop 4)]
  rw [List.drop_drop]

theorem IsStem.digits_take {s : Str} (h : IsStem s) (i n : Nat) :
    Decimal.Digits ((s.drop i).take n) :=
  fun c hc => h.digits c (List.mem_of_mem_drop (List.mem_of_mem_take hc))

theorem earlier_iff_lt {a b : Str} (ha : IsStem a) (hb : IsStem b) : Earlier a b ↔ a < b := by
  have hyear : (a.take 4).length = (b.take 4).length := by simp [ha.length, hb.length]
  have hmonth : ((a.drop 4).take 2).length = ((b.drop 4).take 2).length := by
    simp [ha.length, hb.length]
  have hday : (a.drop 6).length = (b.drop 6).length := by simp [ha.length, hb.length]
  have hya := ha.digits_take 0 4
  have hyb := hb.digits_take 0 4
  have hda : Decimal.Digits (a.drop 6) := fun c hc => ha.digits c (List.mem_of_mem_drop hc)
  have hdb : Decimal.Digits (b.drop 6) := fun c hc => hb.digits c (List.mem_of_mem_drop hc)
  rw [List.drop_zero] at hya hyb
  conv_rhs => rw [stem_eq_parts a, stem_eq_parts b]
  rw [Decimal.append_lt_append_iff hyear, Decimal.append_lt_append_iff hmonth,
    Decimal.lt_iff_value_lt hya hyb hyear, Decimal.eq_iff_value_eq hya hyb hyear,
    Decimal.lt_iff_value_lt (ha.digits_take 4 2) (hb.digits_take 4 2) hmonth,
    Decimal.eq_iff_value_eq (ha.digits_take 4 2) (hb.digits_take 4 2) hmonth,
    Decimal.lt_iff_value_lt hda hdb hday]
  rfl

instance (s : Str) : Decidable (IsStem s) :=
  decidable_of_iff (s.length = 8 ∧ ∀ c ∈ s, isDigit c = true) ⟨fun h => ⟨h.1, h.2⟩, fun h => ⟨h.1, h.2⟩⟩

def isLeap (y : Nat) : Bool := y % 4 == 0 && (y % 100 != 0 || y % 400 == 0)

def daysIn (y m : Nat) : Nat :=
  match m with
  | 2 => if isLeap y then 29 else 28
  | 4 | 6 | 9 | 11 => 30
  | _ => 31

def isDate (stem : Str) : Bool :=
  decide (IsStem stem) && decide (1 ≤ month stem) && decide (month stem ≤ 12) &&
    decide (1 ≤ day stem) && decide (day stem ≤ daysIn (year stem) (month stem))

def dayNames : List Str :=
  ["Sunday".toList, "Monday".toList, "Tuesday".toList, "Wednesday".toList, "Thursday".toList,
    "Friday".toList, "Saturday".toList]

theorem dayNames_letters : ∀ name ∈ dayNames, ∀ b ∈ ascii name,
    (65 ≤ b.toNat ∧ b.toNat ≤ 90) ∨ (97 ≤ b.toNat ∧ b.toNat ≤ 122) := by
  decide +kernel

/-- Days of the week as offsets of the months, with the year that ends in February. -/
def dayOfWeek (stem : Str) : Nat :=
  let y := if month stem < 3 then year stem + 399 else year stem + 400
  let offsets := [0, 3, 2, 5, 0, 3, 5, 1, 4, 6, 2, 4]
  (y + y / 4 - y / 100 + y / 400 + offsets.getD (month stem - 1) 0 + day stem) % 7

def gregorian : Timex Str where
  parse s := if isDate s then some s else none
  ymd s := ascii (s.take 4 ++ '-' :: ((s.drop 4).take 2 ++ '-' :: s.drop 6))
  weekday s := ascii (dayNames.getD (dayOfWeek s) [])
  parse_exact s d h := by
    split at h
    · next hdate =>
        simp only [isDate, Bool.and_eq_true, decide_eq_true_eq] at hdate
        exact hdate.1.1.1.1
    · cases h
  ymd_parse s d h := by
    split at h
    · cases h; rfl
    · cases h
  weekday_letters s := by
    rw [List.getD_eq_getElem?_getD]
    cases hday : dayNames[dayOfWeek s]? with
    | none => simp [ascii]
    | some name => exact dayNames_letters name (List.mem_of_getElem? hday)

example : gregorian.weekday "20260817".toList = ascii "Monday".toList := by decide +kernel

def asciiGraphemes : Graphemes where
  split s := s.map fun c => [c]
  flatten_split s := by
    induction s with
    | nil => rfl
    | cons c rest ih => rw [List.map_cons, List.flatten_cons, ih, List.singleton_append]
  split_ascii _ _ := rfl

end ChangelogCreator
