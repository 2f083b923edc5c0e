import FabricManuals.Lib.Attempts
import FabricManuals.Lib.DeltaStream
import FabricManuals.Probe.Report
import FabricManuals.Probe.WireLayout

/-! # What the wire probe measures, `main` of `wire.c`

The frames of 400 ticks are compressed alone, against the tick before, and against a tick
that is 2, 4 or 8 behind; the last section decompresses one packet over and over.  The
compressor is a parameter.  A context holds a reference as the buffer it was given, so
that what is read through it is what the buffer holds at the call. -/
set_option autoImplicit false

namespace Wire

open SampleBuffer Report Attempts DeltaStream
open ByteBuffer (Buffer ByteOrder)

def TICKS : Nat := 400

@[irreducible] def tabulate (size : Nat) (byte : Nat → UInt8) : Buffer := (List.range size).map byte

@[simp] theorem length_tabulate (size : Nat) (byte : Nat → UInt8) : (tabulate size byte).length = size := by
  rw [tabulate, List.length_map, List.length_range]

theorem getElem?_tabulate {size : Nat} (byte : Nat → UInt8) {i : Nat} (hi : i < size) :
    (tabulate size byte)[i]? = some (byte i) := by
  rw [tabulate, List.getElem?_map, List.getElem?_range hi]
  rfl

inductive Ref
  | cur
  | base
deriving DecidableEq

/-- libzstd.  A call that compresses or decompresses is given what the buffers hold and the
destination, and returns its result, the destination and the context.  `packet` is what a
level makes of a content and a reference, and `level` what a context remembers; the other
fields are what is documented of the calls. -/
structure Zstd where
  CCtx : Type
  DCtx : Type
  compressBound : Nat → Nat
  createCCtx : CCtx
  compressCCtx : CCtx → Buffer → Buffer → Int → Nat × Buffer × CCtx
  resetSession : CCtx → CCtx
  setLevel : CCtx → Int → CCtx
  refPrefix : CCtx → Ref → CCtx
  compress2 : CCtx → (Ref → Buffer) → Buffer → Buffer → Nat × Buffer × CCtx
  createDCtx : DCtx
  resetSession' : DCtx → DCtx
  refPrefix' : DCtx → Ref → DCtx
  decompressDCtx : DCtx → (Ref → Buffer) → Buffer → Buffer → Nat × Buffer × DCtx
  packet : Int → Option Buffer → Buffer → Buffer
  contentOf : Option Buffer → Buffer → Option Buffer
  level : CCtx → Int
  level_create : level createCCtx = 3
  level_set : ∀ c lvl, level (setLevel c lvl) = lvl
  fits : ∀ lvl ref content, (packet lvl ref content).length ≤ compressBound content.length
  bound_le : ∀ n, compressBound n ≤ n + n / 256 + 64
  content_packet : ∀ lvl ref content, contentOf ref (packet lvl ref content) = some content
  compressCCtx_eq : ∀ c dst src lvl, compressBound src.length ≤ dst.length → ∃ rest c',
    compressCCtx c dst src lvl = ((packet lvl none src).length, packet lvl none src ++ rest, c') ∧
      (packet lvl none src ++ rest).length = dst.length
  compress2_eq : ∀ c ref mem dst src, compressBound src.length ≤ dst.length → ∃ rest c',
    compress2 (refPrefix c ref) mem dst src =
        ((packet (level c) (some (mem ref)) src).length, packet (level c) (some (mem ref)) src ++ rest, c') ∧
      (packet (level c) (some (mem ref)) src ++ rest).length = dst.length
  decompressDCtx_eq : ∀ d ref mem dst src content, contentOf (some (mem ref)) src = some content →
    content.length ≤ dst.length → ∃ rest d',
      decompressDCtx (refPrefix' d ref) mem dst src = (content.length, content ++ rest, d') ∧
        (content ++ rest).length = dst.length

/-- A library that stores what it is given is one. -/
instance : Inhabited Zstd where
  default :=
    { CCtx := Int
      DCtx := Unit
      compressBound := id
      createCCtx := 3
      compressCCtx := fun c dst src _ => (src.length, src ++ dst.drop src.length, c)
      resetSession := id
      setLevel := fun _ lvl => lvl
      refPrefix := fun c _ => c
      compress2 := fun c _ dst src => (src.length, src ++ dst.drop src.length, c)
      createDCtx := ()
      resetSession' := id
      refPrefix' := fun d _ => d
      decompressDCtx := fun d _ dst src => (src.length, src ++ dst.drop src.length, d)
      packet := fun _ _ content => content
      contentOf := fun _ packet => some packet
      level := id
      level_create := rfl
      level_set := fun _ _ => rfl
      fits := fun _ _ content => Nat.le_refl content.length
      bound_le := fun n => Nat.le_trans (Nat.le_add_right n (n / 256)) (Nat.le_add_right _ 64)
      content_packet := fun _ _ _ => rfl
      compressCCtx_eq := fun c dst src _ h => ⟨dst.drop src.length, c, rfl, by simpa using Nat.add_sub_of_le h⟩
      compress2_eq := fun c _ _ dst src h => ⟨dst.drop src.length, c, rfl, by simpa using Nat.add_sub_of_le h⟩
      decompressDCtx_eq := by
        rintro d ref mem dst src content hcontent h
        obtain rfl := Option.some.inj hcontent
        exact ⟨dst.drop src.length, d, rfl, by simp [h]⟩ }

structure Heap where
  cur : Buffer
  base : Buffer
  out : Buffer
  t : Cells UInt64

def Heap.read (m : Heap) : Ref → Buffer
  | .cur => m.cur.take FRAME
  | .base => m.base.take FRAME

section Program
variable (z : Zstd) (o : ByteOrder)

structure Loop where
  heap : Heap
  cctx : z.CCtx
  total : Nat
  n : Nat

def Loop.start (m : Heap) : Loop z := ⟨m, z.createCCtx, 0, 0⟩

variable {z} in
/-- `t[n++] = spent; total += r;` -/
def Loop.record (s : Loop z) (m : Heap) (c : z.CCtx) (spent : UInt64) (r : Nat) : Loop z :=
  ⟨{ m with t := store m.t s.n spent }, c, (s.total + r) % 18446744073709551616, s.n + 1⟩

/-- `build_frame(cur, i)`; no result where the source has no defined one. -/
def buildCur (m : Heap) (tick : Int) : Option Heap := do
  let cur ← (buildFrame o m.cur tick).toOption
  return { m with cur }

def buildBase (m : Heap) (tick : Int) : Option Heap := do
  let base ← (buildFrame o m.base tick).toOption
  return { m with base }

def copyToBase (m : Heap) : Option Heap :=
  if FRAME ≤ m.cur.length ∧ FRAME ≤ m.base.length then
    some { m with base := m.cur.take FRAME ++ m.base.drop FRAME }
  else none

def plainTurn (lvl : Int) (spent : Nat → UInt64) (s : Loop z) (i : Nat) : Option (Loop z) := do
  let m ← buildCur o s.heap i
  let (r, out, c) := z.compressCCtx s.cctx m.out (m.read .cur) lvl
  return s.record { m with out } c (spent i) r

def previousTurn (lvl : Int) (spent : Nat → UInt64) (s : Loop z) (i : Nat) : Option (Loop z) := do
  let m ← buildCur o s.heap i
  let c := z.refPrefix (z.setLevel (z.resetSession s.cctx) lvl) .base
  let (r, out, c) := z.compress2 c m.read m.out (m.read .cur)
  let s := s.record { m with out } c (spent i) r
  let m ← copyToBase s.heap
  return { s with heap := m }

def ackedTurn (lag : Nat) (spent : Nat → UInt64) (s : Loop z) (i : Nat) : Option (Loop z) := do
  let m ← buildBase o s.heap (i - lag)
  let m ← buildCur o m i
  let c := z.refPrefix (z.setLevel (z.resetSession s.cctx) 1) .base
  let (r, out, c) := z.compress2 c m.read m.out (m.read .cur)
  return s.record { m with out } c (spent i) r

variable {z} in
def Loop.report (s : Loop z) (name : String) (frames : Int) : Option (Line UInt64 × Heap) := do
  let (line, t) ← Wire.report id name s.heap.t s.n s.total frames
  return (line, { s.heap with t })

def plain (lvl : Int) (spent : Nat → UInt64) (m : Heap) : Option (Line UInt64 × Heap) := do
  let s ← (List.range' 0 TICKS).foldlM (plainTurn z o lvl spent) (.start z m)
  s.report s!"zstd level {lvl}, no dictionary" TICKS

def previous (lvl : Int) (spent : Nat → UInt64) (m : Heap) : Option (Line UInt64 × Heap) := do
  let m ← buildBase o m 0
  let s ← (List.range' 1 (TICKS - 1)).foldlM (previousTurn z o lvl spent) (.start z m)
  s.report s!"zstd L{lvl}, prefix = prev tick" (TICKS - 1)

def acked (lag : Nat) (spent : Nat → UInt64) (m : Heap) : Option (Line UInt64 × Heap) := do
  let s ← (List.range' lag (TICKS - lag)).foldlM (ackedTurn z o lag spent) (.start z m)
  s.report s!"zstd L1, prefix = acked -{lag} ticks" (TICKS - lag)

/-- The loop of the client, which leaves when a frame has another size. -/
def clientLoop (m : Heap) (r : Nat) (spent : Nat → UInt64) :
    List Nat → z.DCtx → Buffer → Cells UInt64 → Nat → Buffer × Cells UInt64 × Nat × Bool
  | [], _, back, t, n => (back, t, n, false)
  | i :: rest, d, back, t, n =>
    let d := z.refPrefix' (z.resetSession' d) .base
    let (got, back, d) := z.decompressDCtx d m.read back (m.out.take r)
    let t := store t n (spent i)
    if got ≠ FRAME then (back, t, n + 1, true) else clientLoop m r spent rest d back t (n + 1)

inductive Printed
  | raw (bytes : Nat)
  | measured (line : Line UInt64)
  | mismatch
  | client (median : UInt64) (exact : Bool)

def clientReport (m : Heap) (back : Buffer) (t : Cells UInt64) (n : Nat) (left : Bool) :
    Option (List Printed) := do
  let t ← qsort id t n
  let median ← load t (n / 2)
  return (if left then [.mismatch] else []) ++
    [.client median (back.take FRAME == m.cur.take FRAME)]

def client (spent : Nat → UInt64) (back : Buffer) (m : Heap) : Option (List Printed) := do
  let m ← buildBase o m 100
  let m ← buildCur o m 101
  let (r, out, _) := z.compress2 (z.refPrefix z.createCCtx .base) m.read m.out (m.read .cur)
  let m := { m with out }
  let (back, t, n, left) := clientLoop z m r spent (List.range' 0 TICKS) z.createDCtx back m.t 0
  clientReport m back t n left

/-- What `malloc` returns holds anything. -/
def allocate (garbage : Nat → UInt8) (size : Nat) : Buffer := tabulate size garbage

def andThen (section' : Option (Line UInt64 × Heap)) (rest : Heap → Option (List Printed)) :
    Option (List Printed) := do
  let (line, m) ← section'
  let later ← rest m
  return .measured line :: later

/-- `spent` has the time of each turn of each measuring loop. -/
def main (garbage : Nat → UInt8) (spent : Nat → Nat → UInt64) : Option (List Printed) := do
  let m : Heap := ⟨allocate garbage FRAME, allocate garbage FRAME,
    allocate garbage (z.compressBound FRAME), malloc TICKS⟩
  let later ← andThen (plain z o 1 (spent 0) m) fun m =>
    andThen (plain z o 3 (spent 1) m) fun m =>
    andThen (previous z o 1 (spent 2) m) fun m =>
    andThen (previous z o 3 (spent 3) m) fun m =>
    andThen (acked z o 2 (spent 4) m) fun m =>
    andThen (acked z o 4 (spent 5) m) fun m =>
    andThen (acked z o 8 (spent 6) m) fun m =>
    client z o (spent 7) (allocate garbage FRAME) m
  return .raw FRAME :: later

end Program

/-! ## Frames and packets -/

section Streams
variable (z : Zstd) (o : ByteOrder)

def frame (tick : Nat) : Buffer := tabulate FRAME (frameByte o tick)

def Zstd.coder (lvl : Int) : Coder Buffer Buffer where
  encode := z.packet lvl
  decode := z.contentOf
  decode_encode := z.content_packet lvl

def plainPackets (lvl : Int) : List Buffer :=
  (List.range' 0 TICKS).map fun i => z.packet lvl none (frame o i)

/-- The packets of all ticks that have one `lag` ticks before. -/
def deltaPackets (lvl : Int) (lag : Nat) : List Buffer :=
  sent (z.coder lvl) (frame o) lag (List.range' lag (TICKS - lag))

@[simp] theorem length_frame (tick : Nat) : (frame o tick).length = FRAME := by
  rw [frame, length_tabulate]

theorem buildFrame_frame {buf : Buffer} (hbuf : buf.length = FRAME) {tick : Nat} (htick : tick < TICKS) :
    buildFrame o buf tick = .ok (frame o tick) := by
  have hhigh : (tick : Int) < 2 ^ 23 := by
    norm_num
    simp only [TICKS] at htick
    omega
  obtain ⟨built, hbuilt, hlen, hbytes⟩ := buildFrame_image o (Nat.le_of_eq hbuf.symm) (by omega) hhigh
  have hframe : built = frame o tick := by
    apply List.ext_getElem?
    intro i
    by_cases hi : i < FRAME
    · rw [hbytes i hi, frame, getElem?_tabulate _ hi]
    · rw [List.getElem?_eq_none (by omega), List.getElem?_eq_none (by rw [length_frame]; omega)]
  rw [hbuilt, hframe]

end Streams

section Loops
variable {z : Zstd} {o : ByteOrder}

structure Heap.Sized (z : Zstd) (m : Heap) : Prop where
  cur : m.cur.length = FRAME
  base : m.base.length = FRAME
  out : m.out.length = z.compressBound FRAME
  t : m.t.length = TICKS

/-- After these packets, with these times: the sum of the lengths, and the times in `t`. -/
structure Loop.Measured (z : Zstd) (packets : List Buffer) (samples : List UInt64) (s : Loop z) : Prop where
  sized : s.heap.Sized z
  total : s.total = (packets.map List.length).sum % 18446744073709551616
  stored : Holds s.heap.t samples
  n : s.n = samples.length

theorem Loop.Measured.start {m : Heap} (h : m.Sized z) : (Loop.start z m).Measured z [] [] :=
  ⟨h, rfl, holds_nil _, rfl⟩

theorem Loop.Measured.record {packets : List Buffer} {samples : List UInt64} {s : Loop z}
    (h : s.Measured z packets samples) (hroom : samples.length < TICKS) {m : Heap} (hm : m.Sized z)
    (ht : m.t = s.heap.t) (c : z.CCtx) (spent : UInt64) (p : Buffer) :
    (s.record m c spent p.length).Measured z (packets ++ [p]) (samples ++ [spent]) := by
  obtain ⟨hsized, htotal, hstored, hn⟩ := h
  constructor
  · exact ⟨hm.cur, hm.base, hm.out, by rw [← hm.t]; exact length_store ..⟩
  · rw [Loop.record, htotal, List.map_append, List.sum_append]
    simp
  · show Holds (store m.t s.n spent) _
    rw [hn, ht]
    exact holds_store hstored (by rw [hsized.t]; exact hroom) spent
  · rw [Loop.record, hn, List.length_append]
    rfl

def Loop.copied (s : Loop z) : Loop z := { s with heap := { s.heap with base := s.heap.cur } }

theorem Loop.Measured.copied {packets : List Buffer} {samples : List UInt64} {s : Loop z}
    (h : s.Measured z packets samples) : s.copied.Measured z packets samples :=
  ⟨⟨h.sized.cur, h.sized.cur, h.sized.out, h.sized.t⟩, h.total, h.stored, h.n⟩

theorem buildCur_sized {m : Heap} (h : m.Sized z) {tick : Nat} (htick : tick < TICKS) :
    buildCur o m tick = some { m with cur := frame o tick } := by
  rw [buildCur, buildFrame_frame o h.cur htick]
  rfl

theorem buildBase_sized {m : Heap} (h : m.Sized z) {tick : Nat} (htick : tick < TICKS) :
    buildBase o m tick = some { m with base := frame o tick } := by
  rw [buildBase, buildFrame_frame o h.base htick]
  rfl

theorem copyToBase_sized {m : Heap} (h : m.Sized z) : copyToBase m = some { m with base := m.cur } := by
  rw [copyToBase, if_pos ⟨h.cur.ge, h.base.ge⟩, List.take_of_length_le h.cur.le,
    List.drop_of_length_le h.base.le, List.append_nil]

theorem Heap.Sized.withCur {m : Heap} (h : m.Sized z) (tick : Nat) :
    ({ m with cur := frame o tick } : Heap).Sized z := ⟨length_frame o tick, h.base, h.out, h.t⟩

theorem Heap.Sized.withBase {m : Heap} (h : m.Sized z) (tick : Nat) :
    ({ m with base := frame o tick } : Heap).Sized z := ⟨h.cur, length_frame o tick, h.out, h.t⟩

theorem take_frame (tick : Nat) : (frame o tick).take FRAME = frame o tick :=
  List.take_of_length_le (length_frame o tick).le

theorem fits_frame (lvl : Int) (ref : Option Buffer) (tick : Nat) :
    (z.packet lvl ref (frame o tick)).length ≤ z.compressBound FRAME := by
  have hfits := z.fits lvl ref (frame o tick)
  rwa [length_frame] at hfits

theorem compressCCtx_frame {m : Heap} (h : m.Sized z) {i : Nat} (hcur : m.cur = frame o i) (c : z.CCtx) (lvl : Int) :
    ∃ out c', z.compressCCtx c m.out (m.read .cur) lvl = ((z.packet lvl none (frame o i)).length, out, c') ∧
      ({ m with out } : Heap).Sized z := by
  have hread : m.read .cur = frame o i := by rw [Heap.read, hcur, take_frame]
  obtain ⟨rest, c', hcompress, hlen⟩ := z.compressCCtx_eq c m.out (frame o i) lvl (by rw [length_frame, h.out])
  refine ⟨z.packet lvl none (frame o i) ++ rest, c', ?_, ⟨h.cur, h.base, hlen.trans h.out, h.t⟩⟩
  rw [hread, hcompress]

theorem compress2_frame {m : Heap} (h : m.Sized z) {i j : Nat} (hcur : m.cur = frame o i)
    (hbase : m.base = frame o j) {c : z.CCtx} {lvl : Int} (hlevel : z.level c = lvl) :
    ∃ rest c', z.compress2 (z.refPrefix c .base) m.read m.out (m.read .cur) =
        ((z.packet lvl (some (frame o j)) (frame o i)).length,
          z.packet lvl (some (frame o j)) (frame o i) ++ rest, c') ∧
      ({ m with out := z.packet lvl (some (frame o j)) (frame o i) ++ rest } : Heap).Sized z := by
  have hread : m.read .cur = frame o i := by rw [Heap.read, hcur, take_frame]
  have href : m.read .base = frame o j := by rw [Heap.read, hbase, take_frame]
  have hcompress := z.compress2_eq c .base m.read m.out (frame o i)
  rw [hlevel, href] at hcompress
  obtain ⟨rest, c', heq, hlen⟩ := hcompress (by rw [length_frame, h.out])
  refine ⟨rest, c', ?_, ⟨h.cur, h.base, hlen.trans h.out, h.t⟩⟩
  rw [hread, heq]

theorem plainTurn_eq {packets : List Buffer} {samples : List UInt64} {s : Loop z}
    (h : s.Measured z packets samples) (hroom : samples.length < TICKS) {i : Nat} (hi : i < TICKS)
    (lvl : Int) (spent : Nat → UInt64) :
    ∃ s', plainTurn z o lvl spent s i = some s' ∧
      s'.Measured z (packets ++ [z.packet lvl none (frame o i)]) (samples ++ [spent i]) := by
  have hcur := h.sized.withCur (o := o) i
  obtain ⟨out, c, hcompress, hsized⟩ := compressCCtx_frame hcur rfl s.cctx lvl
  refine ⟨_, ?_, h.record hroom hsized rfl c (spent i) _⟩
  rw [plainTurn, buildCur_sized h.sized hi, Option.bind_eq_bind, Option.bind_some]
  simp only [hcompress]
  rfl

theorem previousTurn_eq {packets : List Buffer} {samples : List UInt64} {s : Loop z}
    (h : s.Measured z packets samples) (hroom : samples.length < TICKS) {i j : Nat} (hi : i < TICKS)
    (hbase : s.heap.base = frame o j) (lvl : Int) (spent : Nat → UInt64) :
    ∃ s', previousTurn z o lvl spent s i = some s' ∧ s'.heap.base = frame o i ∧
      s'.Measured z (packets ++ [z.packet lvl (some (frame o j)) (frame o i)]) (samples ++ [spent i]) := by
  have hcur := h.sized.withCur (o := o) i
  obtain ⟨rest, c, hcompress, hsized⟩ :=
    compress2_frame (j := j) hcur rfl hbase (z.level_set (z.resetSession s.cctx) lvl)
  have hrecorded := h.record hroom hsized rfl c (spent i) (z.packet lvl (some (frame o j)) (frame o i))
  refine ⟨_, ?_, rfl, hrecorded.copied⟩
  rw [previousTurn, buildCur_sized h.sized hi, Option.bind_eq_bind, Option.bind_some]
  simp only [hcompress]
  rw [copyToBase_sized hrecorded.sized]
  rfl

theorem ackedTurn_eq {packets : List Buffer} {samples : List UInt64} {s : Loop z}
    (h : s.Measured z packets samples) (hroom : samples.length < TICKS) {i lag : Nat} (hi : i < TICKS)
    (hlag : lag ≤ i) (spent : Nat → UInt64) :
    ∃ s', ackedTurn z o lag spent s i = some s' ∧
      s'.Measured z (packets ++ [z.packet 1 (some (frame o (i - lag))) (frame o i)]) (samples ++ [spent i]) := by
  have hbase := h.sized.withBase (o := o) (i - lag)
  have hcur := hbase.withCur (o := o) i
  obtain ⟨rest, c, hcompress, hsized⟩ :=
    compress2_frame (j := i - lag) hcur rfl rfl (z.level_set (z.resetSession s.cctx) 1)
  have htick : (i : Int) - lag = ((i - lag : Nat) : Int) := by omega
  refine ⟨_, ?_, h.record hroom hsized rfl c (spent i) _⟩
  rw [ackedTurn, htick, buildBase_sized h.sized (by omega), Option.bind_eq_bind, Option.bind_some,
    buildCur_sized hbase hi, Option.bind_some]
  simp only [hcompress]
  rfl

/-! ## The loops to their ends -/

theorem of_range'_split {start count i : Nat} {before after : List Nat}
    (h : before ++ i :: after = List.range' start count) :
    i = start + before.length ∧ before.length < count := by
  have hlen := congrArg List.length h
  rw [List.length_append, List.length_cons, List.length_range'] at hlen
  have hget := congrArg (·[before.length]?) h
  simp only [List.getElem?_append_right (Nat.le_refl _), Nat.sub_self, List.getElem?_cons_zero] at hget
  rw [List.getElem?_range' (by omega), Nat.one_mul] at hget
  exact ⟨Option.some.inj hget, by omega⟩

structure Line.Measures (line : Line UInt64) (packets : List Buffer) (samples : List UInt64) : Prop where
  bytes : line.bytes = (packets.map List.length).sum
  frames : line.frames = packets.length
  median : (inOrder id samples)[samples.length / 2]? = some line.median

theorem sum_length_lt {packets : List Buffer} (hcount : packets.length ≤ TICKS)
    (hfits : ∀ p ∈ packets, p.length ≤ z.compressBound FRAME) :
    (packets.map List.length).sum < 18446744073709551616 := by
  have hbound := z.bound_le FRAME
  have hsum : (packets.map List.length).sum ≤ packets.length * z.compressBound FRAME := by
    have hle := List.sum_le_card_nsmul (packets.map List.length) (z.compressBound FRAME) (by simpa using hfits)
    simpa using hle
  have hcap : packets.length * z.compressBound FRAME ≤ TICKS * 45039 :=
    Nat.mul_le_mul hcount (hbound.trans (by decide))
  exact (hsum.trans hcap).trans_lt (by decide)

theorem Loop.Measured.report {packets : List Buffer} {samples : List UInt64} {s : Loop z}
    (h : s.Measured z packets samples) (hsamples : samples.length = packets.length)
    (hpos : 0 < packets.length) (hcount : packets.length ≤ TICKS)
    (hfits : ∀ p ∈ packets, p.length ≤ z.compressBound FRAME) (name : String) {frames : Int}
    (hframes : frames = packets.length) :
    ∃ line m, s.report name frames = some (line, m) ∧ line.Measures packets samples ∧ m.Sized z := by
  obtain ⟨t, hsort, hholds, hlen⟩ := qsort_of_holds id h.stored
  obtain ⟨median, -, hmedian⟩ :=
    inOrder_getElem? (id : UInt64 → UInt64) (Nat.div_lt_self (hsamples ▸ hpos) Nat.one_lt_two)
  have hload := load_of_holds hholds hmedian
  have htotal : s.total = (packets.map List.length).sum := by
    rw [h.total, Nat.mod_eq_of_lt (sum_length_lt hcount hfits)]
  refine ⟨⟨name, s.total, frames, median⟩, { s.heap with t }, ?_, ⟨htotal, hframes, hmedian⟩,
    ⟨h.sized.cur, h.sized.base, h.sized.out, hlen.trans h.sized.t⟩⟩
  simp [Loop.report, Wire.report, h.n, hsort, hload]

theorem plain_measures {m : Heap} (h : m.Sized z) (lvl : Int) (spent : Nat → UInt64) :
    ∃ line m', plain z o lvl spent m = some (line, m') ∧
      line.Measures (plainPackets z o lvl) ((List.range' 0 TICKS).map spent) ∧ m'.Sized z := by
  obtain ⟨s, hloop, hs⟩ := exists_foldlM
    (I := fun before s => s.Measured z (before.map fun i => z.packet lvl none (frame o i))
      (before.map spent)) (Loop.Measured.start h) (l := List.range' 0 TICKS)
    (f := plainTurn z o lvl spent) (by
      intro before i after s hsplit hs
      obtain ⟨hi, hlt⟩ := of_range'_split hsplit
      rw [List.map_append, List.map_append]
      exact plainTurn_eq hs (by rwa [List.length_map]) (by omega) lvl spent)
  obtain ⟨line, m', hreport, hline⟩ := hs.report (by simp) (by simp [TICKS]) (by simp)
    (by simpa using fun i _ => fits_frame lvl none i) s!"zstd level {lvl}, no dictionary"
    (show (TICKS : Int) = _ by simp)
  exact ⟨line, m', by rw [plain, hloop]; exact hreport, hline⟩

theorem fits_delta {lvl : Int} {lag : Nat} :
    ∀ p ∈ deltaPackets z o lvl lag, p.length ≤ z.compressBound FRAME := by
  intro p hp
  obtain ⟨i, -, rfl⟩ := List.mem_map.mp hp
  exact fits_frame ..

/-- `base` has the frame of the tick before whenever it is referred to. -/
theorem previous_measures {m : Heap} (h : m.Sized z) (lvl : Int) (spent : Nat → UInt64) :
    ∃ line m', previous z o lvl spent m = some (line, m') ∧
      line.Measures (deltaPackets z o lvl 1) ((List.range' 1 (TICKS - 1)).map spent) ∧ m'.Sized z := by
  obtain ⟨s, hloop, hs, -⟩ := exists_foldlM
    (I := fun before s => s.Measured z (sent (z.coder lvl) (frame o) 1 before) (before.map spent) ∧
      s.heap.base = frame o before.length) ⟨Loop.Measured.start (h.withBase 0), rfl⟩
    (l := List.range' 1 (TICKS - 1)) (f := previousTurn z o lvl spent) (by
      rintro before i after s hsplit ⟨hs, hbase⟩
      obtain ⟨rfl, hlt⟩ := of_range'_split hsplit
      obtain ⟨s', hturn, hbase', hs'⟩ := previousTurn_eq hs (by rw [List.length_map]; omega)
        (by omega : 1 + before.length < TICKS) hbase lvl spent
      refine ⟨s', hturn, ?_, ?_⟩
      · have hlag : 1 + before.length - 1 = before.length := by omega
        rw [sent, List.map_append, List.map_append, List.map_singleton, hlag]
        exact hs'
      · rw [hbase', List.length_append, List.length_singleton, Nat.add_comm])
  obtain ⟨line, m', hreport, hline⟩ := hs.report (by simp [sent]) (by simp [sent, TICKS]) (by simp [sent])
    fits_delta s!"zstd L{lvl}, prefix = prev tick" (show (TICKS : Int) - 1 = _ by simp [sent, TICKS])
  refine ⟨line, m', ?_, hline⟩
  rw [previous, show (0 : Int) = ((0 : Nat) : Int) from rfl, buildBase_sized h (by decide), Option.bind_eq_bind,
    Option.bind_some, hloop]
  exact hreport

theorem acked_measures {m : Heap} (h : m.Sized z) {lag : Nat} (hlag : lag < TICKS) (spent : Nat → UInt64) :
    ∃ line m', acked z o lag spent m = some (line, m') ∧
      line.Measures (deltaPackets z o 1 lag) ((List.range' lag (TICKS - lag)).map spent) ∧ m'.Sized z := by
  obtain ⟨s, hloop, hs⟩ := exists_foldlM
    (I := fun before s => s.Measured z (sent (z.coder 1) (frame o) lag before) (before.map spent))
    (Loop.Measured.start h) (l := List.range' lag (TICKS - lag)) (f := ackedTurn z o lag spent) (by
      intro before i after s hsplit hs
      obtain ⟨hi, hlt⟩ := of_range'_split hsplit
      obtain ⟨s', hturn, hs'⟩ := ackedTurn_eq hs (by rw [List.length_map]; omega) (by omega : i < TICKS)
        (by omega : lag ≤ i) spent
      refine ⟨s', hturn, ?_⟩
      rw [sent, List.map_append, List.map_append, List.map_singleton]
      exact hs')
  obtain ⟨line, m', hreport, hline⟩ := hs.report (by simp [sent]) (by simpa [sent] using hlag) (by simp [sent])
    fits_delta s!"zstd L1, prefix = acked -{lag} ticks"
    (show (TICKS : Int) - lag = _ by simp [sent]; omega)
  exact ⟨line, m', by rw [acked, hloop]; exact hreport, hline⟩

/-- The packet is decompressed to the same frame each time, so no turn leaves the loop. -/
theorem clientLoop_eq {m : Heap} {r : Nat} {content : Buffer} (hcontent : content.length = FRAME)
    (hpacket : z.contentOf (some (m.read .base)) (m.out.take r) = some content)
    (spent : Nat → UInt64) : ∀ (l : List Nat) (d : z.DCtx) (back : Buffer) (t : Cells UInt64) (samples : List UInt64),
    back.length = FRAME → Holds t samples → samples.length + l.length ≤ t.length →
      ∃ back' t', clientLoop z m r spent l d back t samples.length =
          (back', t', (samples ++ l.map spent).length, false) ∧
        Holds t' (samples ++ l.map spent) ∧ (l ≠ [] → back' = content) := by
  intro l
  induction l with
  | nil =>
      intro d back t samples _ hholds _
      exact ⟨back, t, by simp [clientLoop], by simpa using hholds, fun hne => absurd rfl hne⟩
  | cons i rest ih =>
      intro d back t samples hback hholds hroom
      rw [List.length_cons] at hroom
      obtain ⟨left, d', hdecompress, hlen⟩ := z.decompressDCtx_eq (z.resetSession' d) .base m.read back
        (m.out.take r) content hpacket (by rw [hcontent, hback])
      have hwhole : content ++ left = content := by
        have hnone : left.length = 0 := by rw [List.length_append] at hlen; omega
        rw [List.length_eq_zero_iff.mp hnone, List.append_nil]
      rw [hwhole] at hdecompress
      obtain ⟨back', t', hrest, hholds', hlast⟩ := ih d' content (store t samples.length (spent i))
        (samples ++ [spent i]) hcontent (holds_store hholds (by omega) (spent i))
        (by rw [length_store, List.length_append, List.length_singleton]; omega)
      rw [List.append_assoc, List.singleton_append, ← List.map_cons] at hrest hholds'
      refine ⟨back', t', ?_, hholds', fun _ => ?_⟩
      · rw [clientLoop]
        simp only [hdecompress, hcontent, ne_eq, not_true_eq_false, if_false]
        rwa [List.length_append, List.length_singleton] at hrest
      · by_cases hrest' : rest = []
        · subst hrest'
          simp only [clientLoop, Prod.mk.injEq] at hrest
          exact hrest.1.symm
        · exact hlast hrest'

theorem clientReport_eq {m : Heap} {t : Cells UInt64} {samples : List UInt64} (hholds : Holds t samples)
    (hpos : 0 < samples.length) {back : Buffer} (hback : back = m.cur) :
    ∃ median, clientReport m back t samples.length false = some [.client median true] ∧
      (inOrder id samples)[samples.length / 2]? = some median := by
  obtain ⟨t', hsort, hsorted, -⟩ := qsort_of_holds id hholds
  obtain ⟨median, -, hmedian⟩ :=
    inOrder_getElem? (id : UInt64 → UInt64) (Nat.div_lt_self hpos Nat.one_lt_two)
  have hload := load_of_holds hsorted hmedian
  exact ⟨median, by simp [clientReport, hsort, hload, hback], hmedian⟩

theorem client_exact {m : Heap} (h : m.Sized z) (spent : Nat → UInt64) {back : Buffer}
    (hback : back.length = FRAME) :
    ∃ median, client z o spent back m = some [.client median true] ∧
      (inOrder id ((List.range' 0 TICKS).map spent))[TICKS / 2]? = some median := by
  have hbase := h.withBase (o := o) 100
  have hcur := hbase.withCur (o := o) 101
  obtain ⟨rest, c, hcompress, hsized⟩ := compress2_frame (i := 101) (j := 100) hcur rfl rfl z.level_create
  let packet := z.packet 3 (some (frame o 100)) (frame o 101)
  let sentHeap : Heap := ⟨frame o 101, frame o 100, packet ++ rest, m.t⟩
  have hpacket : z.contentOf (some (sentHeap.read .base)) (sentHeap.out.take packet.length) =
      some (frame o 101) := by
    rw [show sentHeap.read .base = frame o 100 from take_frame 100,
      show sentHeap.out.take packet.length = packet from List.take_left' rfl]
    exact z.content_packet ..
  obtain ⟨back', t, hloop, hholds, hlast⟩ := clientLoop_eq (length_frame o 101) hpacket spent
    (List.range' 0 TICKS) z.createDCtx back m.t [] hback (holds_nil _) (by simp [h.t])
  rw [List.nil_append] at hloop hholds
  obtain rfl := hlast (by simp [TICKS])
  have hlen : ((List.range' 0 TICKS).map spent).length = TICKS := by simp
  obtain ⟨median, hreport, hmedian⟩ := clientReport_eq (m := sentHeap) hholds (by rw [hlen]; decide) rfl
  rw [hlen] at hmedian hreport hloop
  refine ⟨median, ?_, hmedian⟩
  rw [client, show (100 : Int) = ((100 : Nat) : Int) from rfl, show (101 : Int) = ((101 : Nat) : Int) from rfl,
    buildBase_sized h (by decide), Option.bind_eq_bind, Option.bind_some, buildCur_sized hbase (by decide),
    Option.bind_some]
  simp only [hcompress]
  rw [List.length_nil] at hloop
  show (match clientLoop z sentHeap packet.length spent (List.range' 0 TICKS) z.createDCtx back m.t 0 with
    | (back, t, n, left) => clientReport sentHeap back t n left) = _
  rw [hloop]
  exact hreport

theorem andThen_eq {section' : Option (Line UInt64 × Heap)} {line : Line UInt64} {m : Heap}
    (h : section' = some (line, m)) {rest : Heap → Option (List Printed)} {later : List Printed}
    (hrest : rest m = some later) : andThen section' rest = some (.measured line :: later) := by
  subst h
  show (rest m >>= fun later => some (.measured line :: later)) = _
  rw [hrest]
  rfl

theorem sized_allocate (garbage : Nat → UInt8) :
    Heap.Sized z ⟨allocate garbage FRAME, allocate garbage FRAME, allocate garbage (z.compressBound FRAME),
      malloc TICKS⟩ :=
  ⟨length_tabulate .., length_tabulate .., length_tabulate .., length_malloc _⟩

def times (spent : Nat → UInt64) (start : Nat) : List UInt64 := (List.range' start (TICKS - start)).map spent

/-- Each line has the bytes of all its packets, their number and the median of their
times; the client's copy is exact; and a receiver that starts from as many frames as the
baseline lags decodes a stream of differences to the frames of the other ticks. -/
theorem main_measures (z : Zstd) (o : ByteOrder) (garbage : Nat → UInt8) (spent : Nat → Nat → UInt64) :
    (∃ plain1 plain3 previous1 previous3 acked2 acked4 acked8 median,
      main z o garbage spent = some [.raw FRAME, .measured plain1, .measured plain3, .measured previous1,
        .measured previous3, .measured acked2, .measured acked4, .measured acked8, .client median true] ∧
      plain1.Measures (plainPackets z o 1) (times (spent 0) 0) ∧
      plain3.Measures (plainPackets z o 3) (times (spent 1) 0) ∧
      previous1.Measures (deltaPackets z o 1 1) (times (spent 2) 1) ∧
      previous3.Measures (deltaPackets z o 3 1) (times (spent 3) 1) ∧
      acked2.Measures (deltaPackets z o 1 2) (times (spent 4) 2) ∧
      acked4.Measures (deltaPackets z o 1 4) (times (spent 5) 4) ∧
      acked8.Measures (deltaPackets z o 1 8) (times (spent 6) 8) ∧
      (inOrder id (times (spent 7) 0))[TICKS / 2]? = some median) ∧
    ∀ (lvl : Int) (n : Nat),
      receive (z.coder lvl) ((List.range' 0 (n + 1)).map (frame o)) (deltaPackets z o lvl (n + 1)) =
        some ((List.range' (n + 1) (TICKS - (n + 1))).map (frame o)) := by
  constructor
  · obtain ⟨plain1, m, hplain1, hp1, h⟩ := plain_measures (o := o) (sized_allocate (z := z) garbage) 1 (spent 0)
    obtain ⟨plain3, m, hplain3, hp3, h⟩ := plain_measures (o := o) h 3 (spent 1)
    obtain ⟨previous1, m, hprevious1, hr1, h⟩ := previous_measures (o := o) h 1 (spent 2)
    obtain ⟨previous3, m, hprevious3, hr3, h⟩ := previous_measures (o := o) h 3 (spent 3)
    obtain ⟨acked2, m, hacked2, ha2, h⟩ := acked_measures (o := o) h (by decide : 2 < TICKS) (spent 4)
    obtain ⟨acked4, m, hacked4, ha4, h⟩ := acked_measures (o := o) h (by decide : 4 < TICKS) (spent 5)
    obtain ⟨acked8, m, hacked8, ha8, h⟩ := acked_measures (o := o) h (by decide : 8 < TICKS) (spent 6)
    obtain ⟨median, hclient, hmedian⟩ := client_exact (o := o) h (spent 7) (length_tabulate FRAME garbage)
    refine ⟨plain1, plain3, previous1, previous3, acked2, acked4, acked8, median, ?_, hp1, hp3, hr1, hr3,
      ha2, ha4, ha8, hmedian⟩
    rw [main]
    refine Option.bind_eq_some_iff.mpr ⟨_, ?_, rfl⟩
    apply andThen_eq hplain1
    apply andThen_eq hplain3
    apply andThen_eq hprevious1
    apply andThen_eq hprevious3
    apply andThen_eq hacked2
    apply andThen_eq hacked4
    apply andThen_eq hacked8
    exact hclient
  · intro lvl n
    have hstream := receive_sent (z.coder lvl) (frame o) n.succ_pos (TICKS - (n + 1)) 0
    rwa [Nat.zero_add] at hstream

end Loops

/-- With a library that only stores, on a machine whose clock stands still. -/
theorem main_measures_stored : ∃ lines, main default .little (fun _ => 0) (fun _ _ => 0) = some lines := by
  obtain ⟨⟨_, _, _, _, _, _, _, _, hmain, -⟩, -⟩ := main_measures default .little (fun _ => 0) fun _ _ => 0
  exact ⟨_, hmain⟩

end Wire
