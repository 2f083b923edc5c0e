import FabricManuals.Lib.Folding
import Mathlib.Data.List.FinRange

/-! # The determinism hash, `run_and_hash` of `rollback.cpp`

The hash of a replay folds the integer registers and the program counter that the
replay leaves.  Two replays that left different words at one place never hash alike,
whatever the place and the amount. -/
set_option autoImplicit false

namespace Rollback

open Folding

structure Cpu where
  reg : Fin 32 → UInt64
  pc : UInt64

/-- One round, `h = (h ^ v) * 1099511628211ull`. -/
def mix (h v : UInt64) : UInt64 := (h ^^^ v) * 1099511628211

def fold (h : UInt64) (words : List UInt64) : UInt64 := words.foldl mix h

def runAndHash (cpu : Cpu) : UInt64 :=
  let h := (List.finRange 32).foldl (fun h r => mix h (cpu.reg r)) 1469598103934665603
  mix h cpu.pc

def Cpu.words (cpu : Cpu) : List UInt64 := (List.finRange 32).map cpu.reg ++ [cpu.pc]

theorem runAndHash_eq_fold (cpu : Cpu) : runAndHash cpu = fold 1469598103934665603 cpu.words := by
  rw [fold, Cpu.words, List.foldl_append, List.foldl_map]
  rfl

/-- The prime is odd, so multiplying by it can be undone modulo `2 ^ 64`. -/
theorem mul_prime_bijective : Function.Bijective fun x : UInt64 => x * 1099511628211 := by
  have hinv : (1099511628211 : UInt64) * 14886173955864302971 = 1 := by decide
  have hinv' : (14886173955864302971 : UInt64) * 1099511628211 = 1 := by decide
  apply Function.bijective_iff_has_inverse.mpr
  refine ⟨fun y => y * 14886173955864302971, fun x => ?_, fun y => ?_⟩
  · simp only [UInt64.mul_assoc, hinv, UInt64.mul_one]
  · simp only [UInt64.mul_assoc, hinv', UInt64.mul_one]

theorem xor_right_bijective (v : UInt64) : Function.Bijective fun h : UInt64 => h ^^^ v := by
  apply Function.Involutive.bijective
  intro h
  simp only [UInt64.xor_assoc, UInt64.xor_self, UInt64.xor_zero]

theorem xor_left_bijective (h : UInt64) : Function.Bijective fun v : UInt64 => h ^^^ v := by
  apply Function.Involutive.bijective
  intro v
  simp only [← UInt64.xor_assoc, UInt64.xor_self, UInt64.zero_xor]

theorem mix_reversible : Reversible mix where
  state v := mul_prime_bijective.comp (xor_right_bijective v)
  word h := mul_prime_bijective.comp (xor_left_bijective h)

/-- Any single word that differs shows in the hash, in the fold and in a replay, and
with the other words held each hash comes from exactly one word. -/
theorem detects_single_divergence :
    (∀ (h : UInt64) (words words' : List UInt64), DifferOnce words words' →
      fold h words ≠ fold h words') ∧
    (∀ (h : UInt64) (before after : List UInt64),
      Function.Bijective fun v => fold h (before ++ v :: after)) ∧
    (∀ cpu cpu' : Cpu, DifferOnce cpu.words cpu'.words → runAndHash cpu ≠ runAndHash cpu') := by
  refine ⟨fun h words words' => mix_reversible.foldl_ne h, mix_reversible.foldl_word, ?_⟩
  intro cpu cpu' hdiffer
  rw [runAndHash_eq_fold, runAndHash_eq_fold]
  exact mix_reversible.foldl_ne _ hdiffer

theorem detects_single_divergence_lastWord :
    fold 1469598103934665603 [7, 0x1000] ≠ fold 1469598103934665603 [7, 0x1004] := by
  apply detects_single_divergence.1
  refine ⟨rfl, 1, by decide, ?_⟩
  intro i hi
  match i with
  | 0 => exact absurd rfl hi
  | 1 => rfl
  | _ + 2 => exact absurd rfl hi

end Rollback
