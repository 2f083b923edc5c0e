import FabricManuals.Lib.CInt
import Mathlib.Tactic.NormNum
import Mathlib.Tactic.Positivity

/-! # Integers in a flat byte buffer

A write puts the bytes of one value at an offset; it faults when it would leave the
buffer.  Values are laid out in two's complement, in either byte order.  When every
write of a sequence puts what an image of the buffer has at its place, the order of
the writes and their overlaps do not matter. -/
set_option autoImplicit false

namespace ByteBuffer

open CInt

abbrev Buffer := List UInt8

inductive ByteOrder
  | little
  | big
deriving DecidableEq

def lowFirst : Nat → Nat → List UInt8
  | 0, _ => []
  | width + 1, n => UInt8.ofNat (n % 256) :: lowFirst width (n / 256)

def valueOf : List UInt8 → Nat
  | [] => 0
  | b :: rest => b.toNat + 256 * valueOf rest

def ByteOrder.arrange (o : ByteOrder) (bytes : List UInt8) : List UInt8 :=
  match o with
  | .little => bytes
  | .big => bytes.reverse

/-- The residue that two's complement of `width` bytes stores for `x`. -/
def residue (width : Nat) (x : Int) : Nat := (x % 256 ^ width).toNat

def encode (o : ByteOrder) (width : Nat) (x : Int) : List UInt8 :=
  o.arrange (lowFirst width (residue width x))

def decodeUnsigned (o : ByteOrder) (bytes : List UInt8) : Int := valueOf (o.arrange bytes)

def decodeSigned (o : ByteOrder) (bytes : List UInt8) : Int :=
  let n : Int := valueOf (o.arrange bytes)
  if 2 * n < 256 ^ bytes.length then n else n - 256 ^ bytes.length

@[simp] theorem length_lowFirst (width n : Nat) : (lowFirst width n).length = width := by
  induction width generalizing n with
  | zero => rfl
  | succ width ih => rw [lowFirst, List.length_cons, ih]

@[simp] theorem length_arrange (o : ByteOrder) (bytes : List UInt8) :
    (o.arrange bytes).length = bytes.length := by
  cases o with
  | little => rfl
  | big => exact List.length_reverse

@[simp] theorem arrange_arrange (o : ByteOrder) (bytes : List UInt8) :
    o.arrange (o.arrange bytes) = bytes := by
  cases o with
  | little => rfl
  | big => exact List.reverse_reverse bytes

@[simp] theorem length_encode (o : ByteOrder) (width : Nat) (x : Int) :
    (encode o width x).length = width := by
  rw [encode, length_arrange, length_lowFirst]

theorem valueOf_lowFirst (width n : Nat) : valueOf (lowFirst width n) = n % 256 ^ width := by
  induction width generalizing n with
  | zero => rw [lowFirst, valueOf, Nat.pow_zero, Nat.mod_one]
  | succ width ih =>
      have hbyte : (UInt8.ofNat (n % 256)).toNat = n % 256 := by
        rw [UInt8.toNat_ofNat']
        omega
      rw [lowFirst, valueOf, ih, hbyte, Nat.pow_succ', Nat.mod_mul]

theorem coe_residue (width : Nat) (x : Int) : (residue width x : Int) = x % 256 ^ width := by
  have hpos : (0 : Int) < 256 ^ width := by positivity
  exact Int.toNat_of_nonneg (Int.emod_nonneg x (Int.ne_of_gt hpos))

theorem residue_lt (width : Nat) (x : Int) : residue width x < 256 ^ width := by
  have hlt := Int.emod_lt_of_pos x (show (0 : Int) < 256 ^ width by positivity)
  rw [← coe_residue] at hlt
  exact_mod_cast hlt

theorem pow_bytes (width : Nat) : (256 : Int) ^ width = 2 ^ (8 * width) := by
  rw [Int.pow_mul]
  norm_num

theorem decodeUnsigned_encode (o : ByteOrder) {width : Nat} {x : Int} (h : Unsigned (8 * width) x) :
    decodeUnsigned o (encode o width x) = x := by
  rw [decodeUnsigned, encode, arrange_arrange, valueOf_lowFirst, Nat.mod_eq_of_lt (residue_lt width x),
    coe_residue, pow_bytes]
  exact Int.emod_eq_of_lt h.low h.high

theorem decodeSigned_encode (o : ByteOrder) {width : Nat} (hwidth : 0 < width) {x : Int}
    (h : Signed (8 * width) x) : decodeSigned o (encode o width x) = x := by
  obtain ⟨hlow, hhigh⟩ := h
  have hpow : (2 : Int) ^ (8 * width) = 2 * 2 ^ (8 * width - 1) := by
    rw [← Int.pow_succ']
    congr 1
    omega
  rw [decodeSigned, length_encode, encode, arrange_arrange, valueOf_lowFirst,
    Nat.mod_eq_of_lt (residue_lt width x), coe_residue, pow_bytes, hpow]
  by_cases hx : 0 ≤ x
  · rw [Int.emod_eq_of_lt hx (by omega), if_pos (by omega)]
  · have hshift : x % (2 * 2 ^ (8 * width - 1)) = x + 2 * 2 ^ (8 * width - 1) := by
      rw [← Int.add_emod_right, Int.emod_eq_of_lt (by omega) (by omega)]
    rw [hshift, if_neg (by omega)]
    omega

structure Write where
  start : Nat
  bytes : List UInt8

def store (buf : Buffer) (w : Write) : Except Fault Buffer :=
  if w.start + w.bytes.length ≤ buf.length then
    .ok (buf.take w.start ++ (w.bytes ++ buf.drop (w.start + w.bytes.length)))
  else .error .outOfBounds

def storeAll (buf : Buffer) (ws : List Write) : Except Fault Buffer := ws.foldlM store buf

def memset (buf : Buffer) (value : UInt8) (n : Nat) : Except Fault Buffer :=
  store buf ⟨0, List.replicate n value⟩

def Write.Covers (w : Write) (i : Nat) : Prop := w.start ≤ i ∧ i < w.start + w.bytes.length

instance (w : Write) (i : Nat) : Decidable (w.Covers i) := inferInstanceAs (Decidable (_ ∧ _))

theorem getElem?_store {buf buf' : Buffer} {w : Write} (h : store buf w = .ok buf') (i : Nat) :
    buf'[i]? = if w.Covers i then w.bytes[i - w.start]? else buf[i]? := by
  unfold store at h
  split at h
  · next hfit =>
      obtain rfl := Except.ok.inj h
      have htake : (buf.take w.start).length = w.start := List.length_take_of_le (by omega)
      by_cases hlow : i < w.start
      · rw [if_neg fun hc => absurd hc.1 (by omega), List.getElem?_append_left (by omega),
          List.getElem?_take_of_lt hlow]
      · rw [List.getElem?_append_right (by omega), htake]
        by_cases hhigh : i < w.start + w.bytes.length
        · rw [if_pos ⟨by omega, hhigh⟩, List.getElem?_append_left (by omega)]
        · rw [if_neg fun hc => hhigh hc.2, List.getElem?_append_right (by omega), List.getElem?_drop]
          congr 1
          omega
  · cases h

theorem length_store {buf buf' : Buffer} {w : Write} (h : store buf w = .ok buf') :
    buf'.length = buf.length := by
  unfold store at h
  split at h
  · obtain rfl := Except.ok.inj h
    simp only [List.length_append, List.length_take, List.length_drop]
    omega
  · cases h

theorem exists_memset {buf : Buffer} {n : Nat} (h : n ≤ buf.length) (value : UInt8) :
    ∃ cleared, memset buf value n = .ok cleared ∧ cleared.length = buf.length ∧
      ∀ i, cleared[i]? = if i < n then some value else buf[i]? := by
  obtain ⟨cleared, hcleared⟩ : ∃ cleared, memset buf value n = .ok cleared :=
    ⟨_, if_pos (by simpa using h)⟩
  refine ⟨cleared, hcleared, length_store hcleared, fun i => ?_⟩
  have hcovers : Write.Covers ⟨0, List.replicate n value⟩ i ↔ i < n := by simp [Write.Covers]
  rw [getElem?_store hcleared]
  by_cases hi : i < n
  · rw [if_pos (hcovers.mpr hi), if_pos hi]
    simp [hi]
  · rw [if_neg fun hc => hi (hcovers.mp hc), if_neg hi]

def Agrees (image : Nat → UInt8) (w : Write) : Prop :=
  ∀ j, j < w.bytes.length → w.bytes[j]? = some (image (w.start + j))

/-- What the writes cover is as in the image, and the rest is as it was. -/
theorem storeAll_of_agrees (image : Nat → UInt8) : ∀ (ws : List Write) (buf : Buffer),
    (∀ w ∈ ws, w.start + w.bytes.length ≤ buf.length ∧ Agrees image w) →
      ∃ buf', storeAll buf ws = .ok buf' ∧ buf'.length = buf.length ∧
        ∀ i, buf'[i]? = if ∃ w ∈ ws, w.Covers i then some (image i) else buf[i]? := by
  intro ws
  induction ws with
  | nil =>
      intro buf _
      exact ⟨buf, rfl, rfl, fun i => by simp⟩
  | cons w rest ih =>
      intro buf h
      obtain ⟨⟨hfit, hagrees⟩, hrest⟩ := List.forall_mem_cons.mp h
      obtain ⟨mid, hmid⟩ : ∃ mid, store buf w = .ok mid := ⟨_, if_pos hfit⟩
      have hlength := length_store hmid
      obtain ⟨buf', hrun, hlength', hbytes⟩ := ih mid fun v hv => hlength ▸ hrest v hv
      refine ⟨buf', ?_, hlength'.trans hlength, fun i => ?_⟩
      · rw [storeAll, List.foldlM_cons, hmid]
        exact hrun
      · rw [hbytes]
        by_cases hlater : ∃ v ∈ rest, v.Covers i
        · rw [if_pos hlater, if_pos]
          obtain ⟨v, hv, hcovers⟩ := hlater
          exact ⟨v, List.mem_cons_of_mem _ hv, hcovers⟩
        · rw [if_neg hlater, getElem?_store hmid]
          by_cases hcovers : w.Covers i
          · have hj := hagrees (i - w.start) (by unfold Write.Covers at hcovers; omega)
            rw [if_pos hcovers, hj, if_pos ⟨w, List.mem_cons_self .., hcovers⟩]
            congr 2
            unfold Write.Covers at hcovers
            omega
          · rw [if_neg hcovers, if_neg]
            intro h
            obtain ⟨v, hv, hvi⟩ := h
            rcases List.mem_cons.mp hv with rfl | hv
            · exact hcovers hvi
            · exact hlater ⟨v, hv, hvi⟩

theorem foldlM_storeAll {ι : Type} {step : Buffer → ι → Except Fault Buffer} (ws : ι → List Write) :
    ∀ (l : List ι) (buf : Buffer), (∀ i ∈ l, ∀ buf, step buf i = storeAll buf (ws i)) →
      l.foldlM step buf = storeAll buf (l.flatMap ws) := by
  intro l
  induction l with
  | nil => intro buf _; rfl
  | cons i rest ih =>
      intro buf h
      obtain ⟨hi, hrest⟩ := List.forall_mem_cons.mp h
      rw [List.foldlM_cons, hi, List.flatMap_cons, storeAll, storeAll, List.foldlM_append]
      congr 1
      funext mid
      exact ih mid hrest

end ByteBuffer
