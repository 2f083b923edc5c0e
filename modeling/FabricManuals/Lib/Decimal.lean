import FabricManuals.Lib.TextFile
import Mathlib.Data.Char
import Mathlib.Data.List.Lex
import Mathlib.Tactic.Ring

/-! # Decimal texts

Digit strings of one length are ordered like the numbers they spell, part by part. -/
set_option autoImplicit false

namespace Decimal

open TextFile

def value (s : Str) : Nat := Nat.ofDigitChars 10 s 0

def Digits (s : Str) : Prop := ∀ c ∈ s, isDigit c = true

theorem digit_lt {c : Char} (h : isDigit c = true) : c.toNat - '0'.toNat < 10 := by
  simp only [isDigit, Bool.and_eq_true, decide_eq_true_eq] at h
  have hle : c.toNat ≤ 57 := h.2
  have hzero : '0'.toNat = 48 := rfl
  omega

theorem digit_lt_iff {a b : Char} (ha : isDigit a = true) (hb : isDigit b = true) :
    a < b ↔ a.toNat - '0'.toNat < b.toNat - '0'.toNat := by
  simp only [isDigit, Bool.and_eq_true, decide_eq_true_eq] at ha hb
  have hla : 48 ≤ a.toNat := ha.1
  have hlb : 48 ≤ b.toNat := hb.1
  have hzero : '0'.toNat = 48 := rfl
  change a.toNat < b.toNat ↔ _
  omega

theorem value_cons (c : Char) (s : Str) :
    value (c :: s) = 10 ^ s.length * (c.toNat - '0'.toNat) + value s := by
  rw [value, Nat.ofDigitChars_cons, Nat.ofDigitChars_eq_ofDigitChars_zero, value]
  simp

theorem value_lt {s : Str} (h : Digits s) : value s < 10 ^ s.length := by
  induction s with
  | nil => simp [value]
  | cons c rest ih =>
      have hrest := ih fun d hd => h d (List.mem_cons_of_mem _ hd)
      have hc := digit_lt (h c (List.mem_cons_self ..))
      rw [value_cons, List.length_cons, Nat.pow_succ]
      calc 10 ^ rest.length * (c.toNat - '0'.toNat) + value rest
          < 10 ^ rest.length * (c.toNat - '0'.toNat) + 10 ^ rest.length := by omega
        _ = 10 ^ rest.length * (c.toNat - '0'.toNat + 1) := by ring
        _ ≤ 10 ^ rest.length * 10 := Nat.mul_le_mul_left _ (by omega)

theorem mixed_lt_iff {base a b x y : Nat} (hx : x < base) (hy : y < base) :
    base * a + x < base * b + y ↔ a < b ∨ (a = b ∧ x < y) := by
  rcases Nat.lt_trichotomy a b with h | h | h
  · have hstep : base * (a + 1) ≤ base * b := Nat.mul_le_mul_left _ h
    rw [Nat.mul_add, Nat.mul_one] at hstep
    omega
  · subst h
    omega
  · have hstep : base * (b + 1) ≤ base * a := Nat.mul_le_mul_left _ h
    rw [Nat.mul_add, Nat.mul_one] at hstep
    omega

theorem lt_iff_value_lt {s t : Str} (hs : Digits s) (ht : Digits t) (hlen : s.length = t.length) :
    s < t ↔ value s < value t := by
  induction s generalizing t with
  | nil =>
      cases t with
      | nil => simp [value]
      | cons d rest => cases hlen
  | cons c s ih =>
      cases t with
      | nil => cases hlen
      | cons d t =>
          have hs' : Digits s := fun x hx => hs x (List.mem_cons_of_mem _ hx)
          have ht' : Digits t := fun x hx => ht x (List.mem_cons_of_mem _ hx)
          have hlen' : s.length = t.length := Nat.succ.inj hlen
          have hc := hs c (List.mem_cons_self ..)
          have hd := ht d (List.mem_cons_self ..)
          have hhead : c = d ↔ c.toNat - '0'.toNat = d.toNat - '0'.toNat := by
            have h1 := digit_lt_iff hc hd
            have h2 := digit_lt_iff hd hc
            constructor
            · rintro rfl; rfl
            · intro heq
              rcases lt_trichotomy c d with h | h | h
              · have := h1.mp h; omega
              · exact h
              · have := h2.mp h; omega
          rw [List.cons_lt_cons_iff, value_cons, value_cons, hlen',
            mixed_lt_iff (hlen' ▸ value_lt hs') (value_lt ht'), digit_lt_iff hc hd, hhead,
            ih hs' ht' hlen']

theorem eq_iff_value_eq {s t : Str} (hs : Digits s) (ht : Digits t) (hlen : s.length = t.length) :
    s = t ↔ value s = value t := by
  constructor
  · rintro rfl; rfl
  · intro heq
    rcases lt_trichotomy s t with h | h | h
    · have := (lt_iff_value_lt hs ht hlen).mp h; omega
    · exact h
    · have := (lt_iff_value_lt ht hs hlen.symm).mp h; omega

theorem append_lt_append_iff {α : Type} [LinearOrder α] {a b x y : List α} (hlen : a.length = b.length) :
    a ++ x < b ++ y ↔ a < b ∨ (a = b ∧ x < y) := by
  induction a generalizing b with
  | nil =>
      obtain rfl := List.length_eq_zero_iff.mp hlen.symm
      simp
  | cons c a ih =>
      cases b with
      | nil => cases hlen
      | cons d b =>
          rw [List.cons_append, List.cons_append, List.cons_lt_cons_iff, List.cons_lt_cons_iff,
            ih (Nat.succ.inj hlen), List.cons.injEq]
          tauto

end Decimal
