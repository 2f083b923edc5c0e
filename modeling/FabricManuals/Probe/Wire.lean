import FabricManuals.Lib.ByteBuffer

/-! # One tick on the wire, `build_frame` of `wire.c`

The frame is filled entity by entity; every integer operation and every conversion of
the source is checked.  `Field` and `value` say what an entity's slot is for: which
bytes carry which number. -/
set_option autoImplicit false

namespace Wire

open CInt ByteBuffer

def PACKET : Nat := 100
def BONES : Nat := 56
def AVATARS : Nat := 8
def ENTITIES : Nat := BONES * AVATARS
def FRAME : Nat := ENTITIES * PACKET

def put64 (o : ByteOrder) (p : Nat) (v : Int) : Write := ⟨p, encode o 8 v⟩
def put16 (o : ByteOrder) (p : Nat) (v : Int) : Write := ⟨p, encode o 2 v⟩
def put32 (o : ByteOrder) (p : Nat) (v : Int) : Write := ⟨p, encode o 4 v⟩

/-- `(int16_t)(amplitude * ((ph % period) - half) / half)`. -/
def swing (amplitude period half ph : Int) : Except Fault Int := do
  let phase ← rem 32 ph period
  let centred ← sub 32 phase half
  let scaled ← mul 32 amplitude centred
  let angle ← div 32 scaled half
  toSigned 16 angle

/-- `is_hips ? 900000 + (tick % 8) * 1500 : 0`. -/
def height (tick b : Int) : Except Fault Int :=
  if b = 1 then do
    let phase ← rem 32 tick 8
    let bob ← mul 32 phase 1500
    add 32 900000 bob
  else pure 0

/-- The writes of position and velocity, which differ between the walking entities and
the bones that only rotate. -/
def motionWrites (o : ByteOrder) (p : Nat) (tick a b : Int) : Except Fault (List Write) := do
  if b = 0 ∨ b = 1 then do
    let walked ← mul 64 tick 12000
    let lane ← mul 32 a 2000000
    let x ← add 64 walked lane
    let y ← height tick b
    let z ← mul 64 a 1500000
    return [put64 o (p + 4) x, put64 o (p + 12) y, put64 o (p + 20) z,
      put16 o (p + 28) 400, put16 o (p + 30) 0, put16 o (p + 32) 0]
  else
    return [put64 o (p + 4) 0, put64 o (p + 12) 0, put64 o (p + 20) 0]

def entityWrites (o : ByteOrder) (tick a b : Int) : Except Fault (List Write) := do
  let row ← mul 32 a BONES
  let index ← add 32 row b
  let offset ← mul 32 index PACKET
  let p := offset.toNat
  let globalId ← toUnsigned 32 index
  let motion ← motionWrites o p tick a b
  let byTick ← mul 32 tick 3
  let byBone ← mul 32 b 7
  let byAvatar ← mul 32 a 11
  let both ← add 32 byTick byBone
  let ph ← add 32 both byAvatar
  let rx ← swing 3000 64 32 ph
  let ry ← swing 1500 48 24 ph
  let rz ← swing 800 32 16 ph
  let stamp ← shl 32 tick 8
  let hlc ← toUnsigned 32 (or stamp (and b 0xff))
  let owner ← toUnsigned 32 a
  let subIndex ← toUnsigned 32 b
  return put32 o p globalId :: motion ++
    [put16 o (p + 34) rx, put16 o (p + 36) ry, put16 o (p + 38) rz, put32 o (p + 40) hlc,
      put32 o (p + 44) (or 0x1000000 owner), put32 o (p + 48) subIndex]

def buildFrame (o : ByteOrder) (buf : Buffer) (tick : Int) : Except Fault Buffer := do
  let cleared ← memset buf 0 FRAME
  (List.range AVATARS).foldlM (fun buf (a : Nat) =>
    (List.range BONES).foldlM (fun buf (b : Nat) => do
      let writes ← entityWrites o tick a b
      storeAll buf writes) buf) cleared

inductive Field
  | globalId
  | px | py | pz
  | vx | vy | vz
  | rx | ry | rz
  | hlc
  | classOwner
  | subIndex
deriving DecidableEq

namespace Field

def offset : Field → Nat
  | globalId => 0
  | px => 4 | py => 12 | pz => 20
  | vx => 28 | vy => 30 | vz => 32
  | rx => 34 | ry => 36 | rz => 38
  | hlc => 40
  | classOwner => 44
  | subIndex => 48

def width : Field → Nat
  | px | py | pz => 8
  | vx | vy | vz | rx | ry | rz => 2
  | _ => 4

def signed : Field → Bool
  | globalId | hlc | classOwner | subIndex => false
  | _ => true

end Field

/-- A smooth motion of the phase between `-amplitude` and `amplitude`. -/
def swung (amplitude period half ph : Int) : Int := (amplitude * (ph.tmod period - half)).tdiv half

/-- The number each field of entity `b` of avatar `a` carries at a tick. -/
def value (tick a b : Int) : Field → Int
  | .globalId => a * 56 + b
  | .px => if b ≤ 1 then tick * 12000 + a * 2000000 else 0
  | .py => if b = 1 then 900000 + tick.tmod 8 * 1500 else 0
  | .pz => if b ≤ 1 then a * 1500000 else 0
  | .vx => if b ≤ 1 then 400 else 0
  | .vy => 0
  | .vz => 0
  | .rx => swung 3000 64 32 (tick * 3 + b * 7 + a * 11)
  | .ry => swung 1500 48 24 (tick * 3 + b * 7 + a * 11)
  | .rz => swung 800 32 16 (tick * 3 + b * 7 + a * 11)
  | .hlc => tick * 256 + b
  | .classOwner => 16777216 + a
  | .subIndex => b

def slot (a b : Nat) : Nat := (a * BONES + b) * PACKET

def readField (o : ByteOrder) (frame : Buffer) (p : Nat) (f : Field) : Int :=
  let bytes := (frame.drop (p + f.offset)).take f.width
  if f.signed then decodeSigned o bytes else decodeUnsigned o bytes

end Wire
