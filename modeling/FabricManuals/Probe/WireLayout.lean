import FabricManuals.Probe.Wire

/-! # The layout of a frame

In the range of ticks that `tick << 8` allows, nothing in `build_frame` overflows or
narrows, and the frame is the image of `value`: each slot holds its entity's fields,
and zeros behind them.  What two ticks can differ in is read off the image. -/
set_option autoImplicit false

namespace Wire

open CInt ByteBuffer

theorem int16_of {x : Int} (hlow : -32768 ≤ x) (hhigh : x ≤ 32767) : Signed 16 x :=
  ⟨by norm_num; omega, by norm_num; omega⟩

theorem int32_of {x : Int} (hlow : -2147483648 ≤ x) (hhigh : x ≤ 2147483647) : Signed 32 x :=
  ⟨by norm_num; omega, by norm_num; omega⟩

theorem int64_of {x : Int} (hlow : -9223372036854775808 ≤ x) (hhigh : x ≤ 9223372036854775807) :
    Signed 64 x :=
  ⟨by norm_num; omega, by norm_num; omega⟩

theorem uint32_of {x : Int} (hlow : 0 ≤ x) (hhigh : x ≤ 4294967295) : Unsigned 32 x :=
  ⟨hlow, by norm_num; omega⟩

structure InRange (tick a b : Int) : Prop where
  tick_nonneg : 0 ≤ tick
  tick_lt : tick < 8388608
  avatar_nonneg : 0 ≤ a
  avatar_lt : a < 8
  bone_nonneg : 0 ≤ b
  bone_lt : b < 56

theorem tmod_range {x : Int} (hx : 0 ≤ x) {k : Int} (hk : 0 < k) : 0 ≤ x.tmod k ∧ x.tmod k < k := by
  rw [Int.tmod_eq_emod_of_nonneg hx]
  exact ⟨Int.emod_nonneg x (Int.ne_of_gt hk), Int.emod_lt_of_pos x hk⟩

theorem tdiv_range {x k bound : Int} (hk : 0 < k) (hlow : -(bound * k) ≤ x) (hhigh : x ≤ bound * k) :
    -bound ≤ x.tdiv k ∧ x.tdiv k ≤ bound := by
  by_cases hx : 0 ≤ x
  · rw [Int.tdiv_eq_ediv_of_nonneg hx]
    have hnonneg := Int.ediv_nonneg hx hk.le
    have hle : x / k ≤ bound := Int.ediv_le_of_le_mul hk hhigh
    exact ⟨by omega, hle⟩
  · have hneg : x.tdiv k = -((-x) / k) := by
      rw [← Int.tdiv_eq_ediv_of_nonneg (show 0 ≤ -x by omega), Int.neg_tdiv, Int.neg_neg]
    have hnonneg := Int.ediv_nonneg (show 0 ≤ -x by omega) hk.le
    have hle : (-x) / k ≤ bound := Int.ediv_le_of_le_mul hk (by omega)
    rw [hneg]
    exact ⟨by omega, by omega⟩

theorem swung_range {amplitude period half ph : Int} (hph : 0 ≤ ph) (hhalf : 0 < half)
    (hperiod : period = half + half) (hamplitude : 0 ≤ amplitude) :
    -amplitude ≤ swung amplitude period half ph ∧ swung amplitude period half ph ≤ amplitude := by
  obtain ⟨hlow, hhigh⟩ := tmod_range hph (show 0 < period by omega)
  apply tdiv_range hhalf
  · rw [← Int.mul_neg]
    exact Int.mul_le_mul_of_nonneg_left (by omega) hamplitude
  · exact Int.mul_le_mul_of_nonneg_left (by omega) hamplitude

theorem swing_eq_ok {amplitude period half ph : Int} (hph : 0 ≤ ph) (hhalf : 0 < half)
    (hhalf' : half ≤ 32) (hperiod : period = half + half) (hamplitude : 0 ≤ amplitude)
    (hamplitude' : amplitude ≤ 3000) :
    swing amplitude period half ph = .ok (swung amplitude period half ph) := by
  obtain ⟨hlow, hhigh⟩ := tmod_range hph (show 0 < period by omega)
  have hlow' := Int.mul_le_mul_of_nonneg_left (show -half ≤ ph.tmod period - half by omega) hamplitude
  have hhigh' := Int.mul_le_mul_of_nonneg_left (show ph.tmod period - half ≤ half by omega) hamplitude
  have hproduct : amplitude * half ≤ 3000 * 32 := Int.mul_le_mul hamplitude' hhalf' hhalf.le (by omega)
  rw [Int.mul_neg] at hlow'
  have hangle := swung_range hph hhalf hperiod hamplitude
  have hquotient : (amplitude * (ph.tmod period - half)).tdiv half = swung amplitude period half ph := rfl
  unfold swing
  rw [rem_eq_ok (by omega) (int32_of (by omega) (by omega)), ok_bind]
  rw [sub_eq_ok (int32_of (by omega) (by omega)), ok_bind]
  rw [mul_eq_ok (int32_of (by omega) (by omega)), ok_bind]
  rw [div_eq_ok (by omega) (int32_of (by rw [hquotient]; omega) (by rw [hquotient]; omega)), hquotient]
  exact toSigned_eq_ok (int16_of (by omega) (by omega))

def fieldWrite (o : ByteOrder) (tick : Int) (a b : Nat) (f : Field) : Write :=
  ⟨slot a b + f.offset, encode o f.width (value tick a b f)⟩

/-- A bone that only rotates puts a position and no velocity. -/
def motionFields (b : Nat) : List Field :=
  [.px, .py, .pz] ++ if b ≤ 1 then [.vx, .vy, .vz] else []

def writtenFields (b : Nat) : List Field :=
  .globalId :: motionFields b ++ [.rx, .ry, .rz, .hlc, .classOwner, .subIndex]

section Entity
variable {tick : Int} {a b : Nat} (o : ByteOrder)

theorem InRange.phase (h : InRange tick a b) :
    0 ≤ tick * 3 + b * 7 + a * 11 ∧ tick * 3 + b * 7 + a * 11 ≤ 2147483647 := by
  obtain ⟨h₁, h₂, h₃, h₄, h₅, h₆⟩ := h
  omega

theorem height_eq (h : InRange tick a b) : height tick b = .ok (value tick a b .py) := by
  obtain ⟨h₁, h₂, h₃, h₄, h₅, h₆⟩ := h
  obtain ⟨hbob, hbob'⟩ := tmod_range h₁ (show (0 : Int) < 8 by decide)
  unfold height value
  by_cases hhips : (b : Int) = 1
  · rw [if_pos hhips, if_pos hhips, rem_eq_ok (by decide) (int32_of (by omega) (by omega)), ok_bind]
    rw [mul_eq_ok (int32_of (by omega) (by omega)), ok_bind]
    exact add_eq_ok (int32_of (by omega) (by omega))
  · rw [if_neg hhips, if_neg hhips]
    rfl

theorem motionWrites_eq (h : InRange tick a b) :
    motionWrites o (slot a b) tick a b = .ok ((motionFields b).map (fieldWrite o tick a b)) := by
  have hheight := height_eq h
  obtain ⟨h₁, h₂, h₃, h₄, h₅, h₆⟩ := h
  unfold motionWrites motionFields
  by_cases hbody : (b : Int) = 0 ∨ (b : Int) = 1
  · have hle : b ≤ 1 := by omega
    have hle' : (b : Int) ≤ 1 := by omega
    rw [if_pos hbody, if_pos hle, mul_eq_ok (int64_of (by omega) (by omega)), ok_bind]
    rw [mul_eq_ok (int32_of (by omega) (by omega)), ok_bind]
    rw [add_eq_ok (int64_of (by omega) (by omega)), ok_bind, hheight, ok_bind]
    rw [mul_eq_ok (int64_of (by omega) (by omega)), ok_bind]
    simp [fieldWrite, value, hle', put64, put16, Field.offset, Field.width, pure, Except.pure]
  · have hlt : ¬ b ≤ 1 := by omega
    have hlt' : ¬ (b : Int) ≤ 1 := by omega
    have hne : ¬ (b : Int) = 1 := by omega
    rw [if_neg hbody, if_neg hlt]
    simp [fieldWrite, value, hlt', hne, put64, Field.offset, Field.width, pure, Except.pure]

theorem entityWrites_eq (h : InRange tick a b) :
    entityWrites o tick a b = .ok ((writtenFields b).map (fieldWrite o tick a b)) := by
  obtain ⟨hph, hph'⟩ := h.phase
  have hmotion := motionWrites_eq o h
  obtain ⟨h₁, h₂, h₃, h₄, h₅, h₆⟩ := h
  have hbones : ((BONES : Nat) : Int) = 56 := rfl
  have hpacket : ((PACKET : Nat) : Int) = 100 := rfl
  have hslot : (((a : Int) * 56 + b) * 100).toNat = slot a b := by
    rw [← hbones, ← hpacket]
    exact Int.toNat_natCast ((a * BONES + b) * PACKET)
  have hmask : CInt.and (b : Int) 0xff = b := and_mask (n := 8) h₅ (by norm_num; omega)
  have hhlc : CInt.or (tick * 2 ^ 8) b = tick * 256 + b := by
    rw [or_shifted h₁ h₅ (by norm_num; omega)]
    norm_num
  have howner : CInt.or 0x1000000 (a : Int) = 16777216 + a :=
    or_shifted (x := 1) (n := 24) (by norm_num) h₃ (by norm_num; omega)
  have hshift : tick * 2 ^ 8 = tick * 256 := by norm_num
  unfold entityWrites
  simp only [hbones, hpacket]
  rw [mul_eq_ok (int32_of (by omega) (by omega)), ok_bind]
  rw [add_eq_ok (int32_of (by omega) (by omega)), ok_bind]
  rw [mul_eq_ok (int32_of (by omega) (by omega)), ok_bind]
  rw [toUnsigned_eq_ok (uint32_of (by omega) (by omega)), ok_bind, hslot, hmotion, ok_bind]
  rw [mul_eq_ok (int32_of (by omega) (by omega)), ok_bind]
  rw [mul_eq_ok (int32_of (by omega) (by omega)), ok_bind]
  rw [mul_eq_ok (int32_of (by omega) (by omega)), ok_bind]
  rw [add_eq_ok (int32_of (by omega) (by omega)), ok_bind]
  rw [add_eq_ok (int32_of (by omega) (by omega)), ok_bind]
  rw [swing_eq_ok hph (by decide) (by decide) (by decide) (by decide) (by decide), ok_bind]
  rw [swing_eq_ok hph (by decide) (by decide) (by decide) (by decide) (by decide), ok_bind]
  rw [swing_eq_ok hph (by decide) (by decide) (by decide) (by decide) (by decide), ok_bind]
  rw [shl_eq_ok h₁ (int32_of (by omega) (by omega)), ok_bind]
  rw [hmask, hhlc, toUnsigned_eq_ok (uint32_of (by omega) (by omega)), ok_bind]
  rw [toUnsigned_eq_ok (uint32_of (by omega) (by omega)), ok_bind]
  rw [toUnsigned_eq_ok (uint32_of (by omega) (by omega)), howner, ok_bind]
  simp [writtenFields, fieldWrite, value, put32, put16, Field.offset, Field.width, pure, Except.pure]

end Entity

def Field.all : List Field :=
  [.globalId, .px, .py, .pz, .vx, .vy, .vz, .rx, .ry, .rz, .hlc, .classOwner, .subIndex]

def Field.at? (off : Nat) : Option Field :=
  Field.all.find? fun f => f.offset ≤ off && off < f.offset + f.width

theorem Field.at?_offset (f : Field) : ∀ j, j < f.width → Field.at? (f.offset + j) = some f := by
  cases f <;> decide

theorem Field.offset_of_at? {off : Nat} {f : Field} (h : Field.at? off = some f) :
    f.offset ≤ off ∧ off < f.offset + f.width := by
  have hfound := List.find?_some h
  simpa using hfound

theorem Field.within (f : Field) : f.offset + f.width ≤ 52 := by cases f <;> decide

theorem Field.at?_padding {off : Nat} (h : 52 ≤ off) : Field.at? off = none := by
  cases hf : Field.at? off with
  | none => rfl
  | some f =>
      have hlt := (Field.offset_of_at? hf).2
      have := f.within
      omega

def slotByte (o : ByteOrder) (tick : Int) (a b off : Nat) : UInt8 :=
  match Field.at? off with
  | some f => (encode o f.width (value tick a b f)).getD (off - f.offset) 0
  | none => 0

def frameByte (o : ByteOrder) (tick : Int) (i : Nat) : UInt8 :=
  slotByte o tick (i / PACKET / BONES) (i / PACKET % BONES) (i % PACKET)

theorem slot_add_lt {a b off : Nat} (ha : a < AVATARS) (hb : b < BONES) (hoff : off < PACKET) :
    slot a b + off < FRAME := by
  simp only [slot, FRAME, ENTITIES, PACKET, BONES, AVATARS] at *
  omega

theorem frameByte_slot (o : ByteOrder) (tick : Int) {a b off : Nat} (hb : b < BONES)
    (hoff : off < PACKET) : frameByte o tick (slot a b + off) = slotByte o tick a b off := by
  simp only [slot, PACKET, BONES] at *
  have hentity : ((a * 56 + b) * 100 + off) / 100 = a * 56 + b := by omega
  have hoffset : ((a * 56 + b) * 100 + off) % 100 = off := by omega
  have hrow : (a * 56 + b) / 56 = a := by omega
  have hcolumn : (a * 56 + b) % 56 = b := by omega
  simp only [frameByte, PACKET, BONES, hentity, hoffset, hrow, hcolumn]

theorem slotByte_field (o : ByteOrder) (tick : Int) (a b : Nat) {f : Field} {j : Nat} (hj : j < f.width) :
    (encode o f.width (value tick a b f))[j]? = some (slotByte o tick a b (f.offset + j)) := by
  have hlength : j < (encode o f.width (value tick a b f)).length := by rwa [length_encode]
  rw [slotByte, f.at?_offset j hj]
  simp only [Nat.add_sub_cancel_left]
  rw [List.getD_eq_getElem?_getD, List.getElem?_eq_getElem hlength]
  rfl

theorem fieldWrite_agrees (o : ByteOrder) (tick : Int) {a b : Nat} (hb : b < BONES) (f : Field) :
    Agrees (frameByte o tick) (fieldWrite o tick a b f) := by
  intro j hj
  have hwidth : j < f.width := by simpa [fieldWrite] using hj
  have hoff : f.offset + j < PACKET := by
    have := f.within
    simp only [PACKET]
    omega
  rw [fieldWrite, Nat.add_assoc, frameByte_slot o tick hb hoff]
  exact slotByte_field o tick a b hwidth

theorem encode_zero (o : ByteOrder) (width j : Nat) : (encode o width 0).getD j 0 = 0 := by
  have hzero : ∀ width, lowFirst width 0 = List.replicate width 0 := by
    intro width
    induction width with
    | zero => rfl
    | succ width ih => rw [lowFirst, Nat.zero_div, ih]; rfl
  have hresidue : residue width 0 = 0 := by simp [residue]
  have harrange : o.arrange (List.replicate width (0 : UInt8)) = List.replicate width 0 := by
    cases o with
    | little => rfl
    | big => exact List.reverse_replicate ..
  rw [encode, hresidue, hzero, harrange, List.getD_eq_getElem?_getD, List.getElem?_replicate]
  split <;> rfl

/-- A byte that no write of its entity covers is zero in the image. -/
theorem slotByte_unwritten (o : ByteOrder) (tick : Int) {a b off : Nat}
    (h : ∀ f ∈ writtenFields b, Field.at? off ≠ some f) : slotByte o tick a b off = 0 := by
  unfold slotByte
  cases hf : Field.at? off with
  | none => rfl
  | some f =>
      have hb : ¬ b ≤ 1 := by
        intro hle
        apply h f _ hf
        simp only [writtenFields, motionFields, if_pos hle]
        cases f <;> decide
      have hvelocity : value tick a b f = 0 := by
        have hnot : f ∉ writtenFields b := fun hmem => h f hmem hf
        simp only [writtenFields, motionFields, if_neg hb] at hnot
        have hb' : ¬ (b : Int) ≤ 1 := by omega
        cases f <;> first | exact if_neg hb' | rfl | exact absurd (by decide) hnot
      simp only [hvelocity]
      exact encode_zero o _ _

/-- Every write of every entity, in the order of the loops. -/
def frameWrites (o : ByteOrder) (tick : Int) : List Write :=
  (List.range AVATARS).flatMap fun a =>
    (List.range BONES).flatMap fun b => (writtenFields b).map (fieldWrite o tick a b)

theorem mem_frameWrites {o : ByteOrder} {tick : Int} {w : Write} :
    w ∈ frameWrites o tick ↔
      ∃ a < AVATARS, ∃ b < BONES, ∃ f ∈ writtenFields b, fieldWrite o tick a b f = w := by
  simp only [frameWrites, List.mem_flatMap, List.mem_range, List.mem_map]

theorem inRange_of {tick : Int} (hlow : 0 ≤ tick) (hhigh : tick < 2 ^ 23) {a b : Nat} (ha : a < AVATARS)
    (hb : b < BONES) : InRange tick a b := by
  norm_num at hhigh
  simp only [AVATARS, BONES] at ha hb
  exact ⟨hlow, hhigh, by omega, by omega, by omega, by omega⟩

theorem buildFrame_eq (o : ByteOrder) {buf : Buffer} {tick : Int} (hlow : 0 ≤ tick)
    (hhigh : tick < 2 ^ 23) :
    buildFrame o buf tick = memset buf 0 FRAME >>= fun cleared => storeAll cleared (frameWrites o tick) := by
  unfold buildFrame
  congr 1
  funext cleared
  refine foldlM_storeAll _ _ cleared fun a ha mid => foldlM_storeAll _ _ mid fun b hb last => ?_
  rw [entityWrites_eq o (inRange_of hlow hhigh (List.mem_range.mp ha) (List.mem_range.mp hb)), ok_bind]

/-- Every byte of the frame is the image's, whatever the buffer held. -/
theorem buildFrame_image (o : ByteOrder) {buf : Buffer} (hbuf : FRAME ≤ buf.length) {tick : Int}
    (hlow : 0 ≤ tick) (hhigh : tick < 2 ^ 23) :
    ∃ frame, buildFrame o buf tick = .ok frame ∧ frame.length = buf.length ∧
      ∀ i, i < FRAME → frame[i]? = some (frameByte o tick i) := by
  obtain ⟨cleared, hcleared, hlength, hzero⟩ := exists_memset hbuf 0
  obtain ⟨frame, hrun, hlength', hbytes⟩ :=
    storeAll_of_agrees (frameByte o tick) (frameWrites o tick) cleared fun w hw => by
      obtain ⟨a, ha, b, hb, f, -, rfl⟩ := mem_frameWrites.mp hw
      refine ⟨?_, fieldWrite_agrees o tick hb f⟩
      have hfit := slot_add_lt ha hb (show 99 < PACKET by decide)
      have hwithin := f.within
      simp only [fieldWrite, length_encode]
      omega
  refine ⟨frame, ?_, hlength'.trans hlength, fun i hi => ?_⟩
  · rw [buildFrame_eq o hlow hhigh, hcleared]
    exact hrun
  · rw [hbytes]
    split
    · rfl
    · next huncovered =>
        -- nothing was put here, so the zero of the cleared buffer is still there
        rw [hzero, if_pos hi, frameByte, slotByte_unwritten]
        intro f hf hat
        apply huncovered
        obtain ⟨hoff, hoff'⟩ := Field.offset_of_at? hat
        refine ⟨_, mem_frameWrites.mpr ⟨i / PACKET / BONES, ?_, i / PACKET % BONES, ?_, f, hf, rfl⟩, ?_⟩
        · simp only [FRAME, ENTITIES, PACKET, BONES, AVATARS] at *
          omega
        · exact Nat.mod_lt _ (by decide)
        · simp only [Write.Covers, fieldWrite, length_encode, slot, PACKET, BONES] at *
          omega

theorem value_fits {tick : Int} {a b : Nat} (h : InRange tick a b) (f : Field) :
    if f.signed then Signed (8 * f.width) (value tick a b f)
    else Unsigned (8 * f.width) (value tick a b f) := by
  obtain ⟨hph, -⟩ := h.phase
  obtain ⟨h₁, h₂, h₃, h₄, h₅, h₆⟩ := h
  obtain ⟨hbob, hbob'⟩ := tmod_range h₁ (show (0 : Int) < 8 by decide)
  have hx := @swung_range 3000 64 32 _ hph (by decide) (by decide) (by decide)
  have hy := @swung_range 1500 48 24 _ hph (by decide) (by decide) (by decide)
  have hz := @swung_range 800 32 16 _ hph (by decide) (by decide) (by decide)
  cases f with
  | globalId | hlc | classOwner | subIndex =>
      show Unsigned 32 _
      simp only [value]
      exact uint32_of (by omega) (by omega)
  | px | py | pz =>
      show Signed 64 _
      simp only [value]
      split <;> exact int64_of (by omega) (by omega)
  | vx | vy | vz =>
      show Signed 16 _
      by_cases hb : (b : Int) ≤ 1 <;> simp only [value, hb, if_true, if_false] <;>
        exact int16_of (by decide) (by decide)
  | rx | ry | rz =>
      show Signed 16 _
      simp only [value]
      exact int16_of (by omega) (by omega)

theorem readField_eq (o : ByteOrder) {tick : Int} {a b : Nat} (h : InRange tick a b) {frame : Buffer}
    (himage : ∀ off, off < PACKET → frame[slot a b + off]? = some (slotByte o tick a b off))
    (f : Field) : readField o frame (slot a b) f = value tick a b f := by
  have hbytes : (frame.drop (slot a b + f.offset)).take f.width =
      encode o f.width (value tick a b f) := by
    apply List.ext_getElem?
    intro j
    by_cases hj : j < f.width
    · have hwithin := f.within
      rw [List.getElem?_take_of_lt hj, List.getElem?_drop, Nat.add_assoc,
        himage _ (by simp only [PACKET]; omega), slotByte_field o tick a b hj]
    · rw [List.getElem?_take_eq_none (by omega), List.getElem?_eq_none (by rw [length_encode]; omega)]
  have hfits := value_fits h f
  rw [readField, hbytes]
  by_cases hsigned : f.signed = true
  · rw [if_pos hsigned] at hfits ⊢
    exact decodeSigned_encode o (by cases f <;> decide) hfits
  · rw [if_neg hsigned] at hfits ⊢
    exact decodeUnsigned_encode o hfits

/-- The fields that a tick can change. -/
def Moves (b : Nat) : Field → Prop
  | .px => b ≤ 1
  | .py => b = 1
  | .rx | .ry | .rz | .hlc => True
  | _ => False

theorem value_of_not_moves {b : Nat} {f : Field} (h : ¬ Moves b f) (tick tick' a : Int) :
    value tick a b f = value tick' a b f := by
  cases f with
  | px =>
      have hb : ¬ (b : Int) ≤ 1 := fun hb => h (show b ≤ 1 by omega)
      simp only [value, if_neg hb]
  | py =>
      have hb : ¬ (b : Int) = 1 := fun hb => h (show b = 1 by omega)
      simp only [value, if_neg hb]
  | rx | ry | rz | hlc => exact absurd trivial h
  | _ => rfl

theorem slotByte_of_not_moves (o : ByteOrder) {b off : Nat}
    (h : ∀ f, Field.at? off = some f → ¬ Moves b f) (tick tick' : Int) (a : Nat) :
    slotByte o tick a b off = slotByte o tick' a b off := by
  unfold slotByte
  cases hf : Field.at? off with
  | none => rfl
  | some f => simp only [value_of_not_moves (h f hf) tick tick']

/-- Each slot of the frame reads back as its entity, with zeros behind the fields. -/
structure FrameOf (o : ByteOrder) (tick : Int) (frame : Buffer) : Prop where
  fields : ∀ a < AVATARS, ∀ b < BONES, ∀ f, readField o frame (slot a b) f = value tick a b f
  padding : ∀ a < AVATARS, ∀ b < BONES, ∀ off, 52 ≤ off → off < PACKET →
    frame[slot a b + off]? = some 0

/-- Each write of an entity covers one field of its own slot, and the fields lie apart. -/
structure WritesApart (o : ByteOrder) (tick : Int) : Prop where
  writes : ∀ a < AVATARS, ∀ b < BONES, ∃ ws, entityWrites o tick a b = .ok ws ∧
    ∀ w ∈ ws, ∃ f : Field, w.start = slot a b + f.offset ∧ w.bytes.length = f.width
  within : ∀ f : Field, f.offset + f.width ≤ 52
  apart : ∀ f f' : Field, f ≠ f' →
    f.offset + f.width ≤ f'.offset ∨ f'.offset + f'.width ≤ f.offset

/-- Where two frames may differ, and where a bone that only rotates may not. -/
structure DeltaLocal (frame frame' : Buffer) : Prop where
  moving : ∀ a < AVATARS, ∀ b < BONES, ∀ off < PACKET,
    frame[slot a b + off]? ≠ frame'[slot a b + off]? → ∃ f, Field.at? off = some f ∧ Moves b f
  position : ∀ a < AVATARS, ∀ b < BONES, 2 ≤ b → ∀ off, 4 ≤ off → off < 28 →
    frame[slot a b + off]? = frame'[slot a b + off]?

theorem writesApart (o : ByteOrder) {tick : Int} (hlow : 0 ≤ tick) (hhigh : tick < 2 ^ 23) :
    WritesApart o tick where
  writes a ha b hb := by
    refine ⟨_, entityWrites_eq o (inRange_of hlow hhigh ha hb), fun w hw => ?_⟩
    obtain ⟨f, -, rfl⟩ := List.mem_map.mp hw
    exact ⟨f, rfl, length_encode ..⟩
  within := Field.within
  apart f f' := by cases f <;> cases f' <;> decide

theorem not_moves_position {b off : Nat} (hb : 2 ≤ b) (hlow : 4 ≤ off) (hhigh : off < 28) :
    ∀ f, Field.at? off = some f → ¬ Moves b f := by
  intro f hf hmoves
  obtain ⟨hoff, hoff'⟩ := Field.offset_of_at? hf
  cases f <;> simp only [Moves, Field.offset, Field.width] at hmoves hoff hoff' <;> omega

theorem frame_layout (o : ByteOrder) (tick : Int) (hlow : 0 ≤ tick) (hhigh : tick < 2 ^ 23)
    (buf : Buffer) (hbuf : FRAME ≤ buf.length) :
    ∃ frame, buildFrame o buf tick = .ok frame ∧ frame.length = buf.length ∧ FrameOf o tick frame ∧
      WritesApart o tick ∧
      ∀ tick', 0 ≤ tick' → tick' < 2 ^ 23 → ∀ buf', FRAME ≤ buf'.length →
        ∃ frame', buildFrame o buf' tick' = .ok frame' ∧ DeltaLocal frame frame' := by
  obtain ⟨frame, hrun, hlength, himage⟩ := buildFrame_image o hbuf hlow hhigh
  have hslot : ∀ a < AVATARS, ∀ b < BONES, ∀ off, off < PACKET →
      frame[slot a b + off]? = some (slotByte o tick a b off) := by
    intro a ha b hb off hoff
    rw [himage _ (slot_add_lt ha hb hoff), frameByte_slot o tick hb hoff]
  refine ⟨frame, hrun, hlength, ⟨?_, ?_⟩, writesApart o hlow hhigh, ?_⟩
  · intro a ha b hb
    exact readField_eq o (inRange_of hlow hhigh ha hb) (hslot a ha b hb)
  · intro a ha b hb off hpad hoff
    rw [hslot a ha b hb off hoff, slotByte, Field.at?_padding hpad]
  · intro tick' hlow' hhigh' buf' hbuf'
    obtain ⟨frame', hrun', -, himage'⟩ := buildFrame_image o hbuf' hlow' hhigh'
    have hsame : ∀ a < AVATARS, ∀ b < BONES, ∀ off, off < PACKET →
        (∀ f, Field.at? off = some f → ¬ Moves b f) →
          frame[slot a b + off]? = frame'[slot a b + off]? := by
      intro a ha b hb off hoff hstill
      rw [hslot a ha b hb off hoff, himage' _ (slot_add_lt ha hb hoff), frameByte_slot o tick' hb hoff,
        slotByte_of_not_moves o hstill]
    refine ⟨frame', hrun', ⟨?_, ?_⟩⟩
    · intro a ha b hb off hoff hdiffer
      by_contra hstill
      exact hdiffer (hsame a ha b hb off hoff fun f hf hmoves => hstill ⟨f, hf, hmoves⟩)
    · intro a ha b hb hrotates off hlow'' hhigh''
      exact hsame a ha b hb off (by simp only [PACKET]; omega) (not_moves_position hrotates hlow'' hhigh'')

theorem frame_layout_secondHips :
    ∃ frame, buildFrame .little (List.replicate FRAME 7) 5 = .ok frame ∧
      readField .little frame (slot 1 1) .py = 907500 := by
  obtain ⟨frame, hrun, -, hframe, -⟩ := frame_layout .little 5 (by decide) (by norm_num)
    (List.replicate FRAME 7) (by rw [List.length_replicate])
  exact ⟨frame, hrun, hframe.fields 1 (by decide) 1 (by decide) .py⟩

end Wire
