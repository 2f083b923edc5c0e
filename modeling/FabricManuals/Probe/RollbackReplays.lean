import FabricManuals.Lib.Attempts
import FabricManuals.Probe.Report
import FabricManuals.Probe.Rollback

/-! # What the rollback probe measures, `measure` and `main` of `rollback.cpp`

Each guest is warmed, saved, put back and forked over and over, and replayed twice from
the last snapshot.  libriscv is a parameter.  A machine that is bit-exact prints the hash
of the run that nobody interrupted, whatever was done to it before. -/
set_option autoImplicit false

namespace Rollback

open Report Attempts

structure MachineOptions where
  memory_max : UInt64
  use_memory_arena : Bool

/-- libriscv; a result is missing where it throws.  `boot` is the constructor with the
system calls set up, and `simulate` leaves what the run or an exception leaves. -/
structure Libriscv (σ : Type) where
  boot : List UInt8 → MachineOptions → Option σ
  simulate : Nat → σ → σ
  serialize_to : σ → Option (Nat × List UInt8)
  deserialize_from : List UInt8 → σ → Int × σ
  fork : σ → MachineOptions → Option σ
  cpu : σ → Cpu

/-- Bit-exact snapshot and replay, for machines that gave up the arena.  `Runs elf` are
the states of a machine of one guest; states that are the `Same` behave alike. -/
structure BitExact {σ : Type} (L : Libriscv σ) where
  Runs : List UInt8 → σ → Prop
  Same : σ → σ → Prop
  boot : ∀ {elf opts m}, opts.use_memory_arena = false → L.boot elf opts = some m → Runs elf m
  simulate : ∀ {elf m} (n : Nat), Runs elf m → Runs elf (L.simulate n m)
  serialize : ∀ {elf m}, Runs elf m → ∃ size snap, L.serialize_to m = some (size, snap)
  deserialize : ∀ {elf m m' size snap}, Runs elf m → L.serialize_to m = some (size, snap) → Runs elf m' →
    ∃ r, L.deserialize_from snap m' = (0, r) ∧ Runs elf r ∧ Same r m
  fork : ∀ {elf m opts}, Runs elf m → opts.use_memory_arena = false → ∃ f, L.fork m opts = some f
  same_simulate : ∀ {m m'} (n : Nat), Same m m' → Same (L.simulate n m) (L.simulate n m')
  same_cpu : ∀ {m m'}, Same m m' → L.cpu m = L.cpu m'

inductive Printed
  | start
  | cannotRead (label : String)
  | guest (label : String) (size : Nat) (mem_mb : UInt64)
  | snapshot (size : Nat)
  | window (size : Nat)
  | measured (line : Fdb.Line UInt64)
  | refused (rc : Int)
  | determinism (identical : Bool) (h1 h2 : UInt64)
  | done

section Program
variable {σ : Type} (L : Libriscv σ)

/-- `snap_size`, `snap` and `ser` after one more turn. -/
def serializeTurn (m : σ) (spent : Nat → UInt64) (s : Nat × List UInt8 × List UInt64) (i : Nat) :
    Option (Nat × List UInt8 × List UInt64) := do
  let (size, snap) ← L.serialize_to m
  return (size, snap, s.2.2 ++ [spent i])

def deserializeLoop (snap : List UInt8) (spent : Nat → UInt64) :
    List Nat → σ → List UInt64 → σ × List UInt64 × Option Int
  | [], m, deser => (m, deser, none)
  | i :: rest, m, deser =>
    let (rc, m) := L.deserialize_from snap m
    let deser := deser ++ [spent i]
    if rc ≠ 0 then (m, deser, some rc) else deserializeLoop snap spent rest m deser

def forkTurn (m : σ) (opts : MachineOptions) (spent : Nat → UInt64) (forks : List UInt64) (i : Nat) :
    Option (List UInt64) := do
  let _ ← L.fork m opts
  return forks ++ [spent i]

def rewindTurn (snap : List UInt8) (spent : Nat → UInt64) (s : σ × List UInt64) (i : Nat) : σ × List UInt64 :=
  let m := (L.deserialize_from snap s.1).2
  let m := (List.range 7).foldl (fun m _ => L.simulate 1000000 m) m
  (m, s.2 ++ [spent i])

/-- `run_and_hash`: the hash, and the machine behind it. -/
def replay (snap : List UInt8) (m : σ) : UInt64 × σ :=
  let m := (L.deserialize_from snap m).2
  let m := L.simulate 3000000 m
  (runAndHash (L.cpu m), m)

/-- `serialize_to` refuses to run with the flat arena, so the machine goes without. -/
def optionsOf (mem_mb : UInt64) : MachineOptions := ⟨mem_mb <<< 20, false⟩

/-- `spent` has the time of each turn of each measuring loop. -/
def measure (label : String) (elf : List UInt8) (mem_mb : UInt64) (spent : Nat → Nat → UInt64) :
    Option (List Printed) :=
  if elf = [] then some [.cannotRead label]
  else do
    let m ← L.boot elf (optionsOf mem_mb)
    let m := L.simulate 2000000 m
    let (size, snap, ser) ← (List.range 200).foldlM (serializeTurn L m (spent 0)) (0, [], [])
    let (serLine, _) ← report "serialize_to" ser
    let (m, deser, refused) := deserializeLoop L snap (spent 1) (List.range 200) m []
    let (deserLine, _) ← report "deserialize_from (rewind)" deser
    let forks ← (List.range 200).foldlM (forkTurn L m (optionsOf mem_mb) (spent 2)) []
    let (forkLine, _) ← report "fork construct (CoW)" forks
    let (m, rewind) := (List.range 50).foldl (rewindTurn L snap (spent 3)) (m, [])
    let (rewindLine, _) ← report "rewind 7 ticks @1M instr" rewind
    let (h1, m) := replay L snap m
    let (h2, _) := replay L snap m
    return [.guest label elf.length mem_mb, .snapshot size, .window size, .measured serLine] ++
      refused.toList.map .refused ++
      [.measured deserLine, .measured forkLine, .measured rewindLine, .determinism (h1 == h2) h1 h2]

/-- `argc` counts the name of the program. -/
def arenaOf (argc i : Nat) : UInt64 := if argc > 2 ∧ i = 2 then 512 else 64

/-- `load` yields no bytes for a file that does not open. -/
def main (load : String → List UInt8) (spent : Nat → Nat → Nat → UInt64) (args : List String) :
    Option (List Printed) := do
  let printed ← (args.zipIdx 1).foldlM (fun (printed : List Printed) (path, i) => do
    let block ← measure L path (load path) (arenaOf (args.length + 1) i) (spent i)
    return printed ++ block) [.start]
  return printed ++ [.done]

end Program

def Summarises (line : Fdb.Line UInt64) (name : String) (times : List UInt64) : Prop :=
  ∃ median p99, line = .quantiles name median p99 times.length ∧
    (sort times)[times.length / 2]? = some median ∧ (sort times)[p99Index times.length]? = some p99

def times (count : Nat) (spent : Nat → UInt64) : List UInt64 := (List.range count).map spent

theorem length_sort (xs : List UInt64) : (sort xs).length = xs.length := List.length_mergeSort xs

theorem exists_report (name : String) {xs : List UInt64} (h : xs ≠ []) :
    ∃ line s', report name xs = some (line, s') ∧ Summarises line name xs := by
  have hpos : 0 < xs.length := List.length_pos_iff.mpr h
  have hmedian : xs.length / 2 < (sort xs).length := by
    rw [length_sort]
    exact Nat.div_lt_self hpos Nat.one_lt_two
  have hp99 : p99Index xs.length < (sort xs).length := by
    rw [length_sort]
    exact p99Index_lt hpos
  refine ⟨.quantiles name (sort xs)[xs.length / 2] (sort xs)[p99Index xs.length] xs.length, sort xs, ?_,
    _, _, rfl, List.getElem?_eq_getElem hmedian, List.getElem?_eq_getElem hp99⟩
  rw [report, if_neg h]
  simp only [length_sort, List.getElem?_eq_getElem hmedian, List.getElem?_eq_getElem hp99]
  rfl

theorem times_ne_nil {count : Nat} (h : 0 < count) (spent : Nat → UInt64) : times count spent ≠ [] := by
  rw [← List.length_pos_iff, times, List.length_map, List.length_range]
  exact h

section Exact
variable {σ : Type} {L : Libriscv σ} (hexact : BitExact L) {elf : List UInt8} {m w : σ} {size : Nat}
  {snap : List UInt8}

theorem serialize_loop (h : L.serialize_to m = some (size, snap)) (spent : Nat → UInt64) {count : Nat}
    (hpos : 0 < count) : (List.range count).foldlM (serializeTurn L m spent) (0, [], []) =
      some (size, snap, times count spent) := by
  let inv : List Nat → Nat × List UInt8 × List UInt64 → Prop := fun before s =>
    (before ≠ [] → s.1 = size ∧ s.2.1 = snap) ∧ s.2.2 = before.map spent
  have hstart : inv [] (0, [], []) := ⟨fun hne => absurd rfl hne, rfl⟩
  have hturn : ∀ before i after s, before ++ i :: after = List.range count → inv before s →
      ∃ s', serializeTurn L m spent s i = some s' ∧ inv (before ++ [i]) s' := by
    intro before i after s _ hkept
    refine ⟨(size, snap, s.2.2 ++ [spent i]), ?_, fun _ => ⟨rfl, rfl⟩, ?_⟩
    · rw [serializeTurn, h]
      rfl
    · rw [hkept.2, List.map_append, List.map_singleton]
  obtain ⟨s, hs, hsaved, htimes⟩ := exists_foldlM hstart hturn
  have hne : List.range count ≠ [] := by
    rw [← List.length_pos_iff, List.length_range]
    exact hpos
  obtain ⟨hsize, hsnap⟩ := hsaved hne
  rw [hs]
  exact congrArg some (Prod.ext hsize (Prod.ext hsnap htimes))

theorem fork_loop (hruns : hexact.Runs elf m) {opts : MachineOptions} (hopts : opts.use_memory_arena = false)
    (spent : Nat → UInt64) (count : Nat) :
    (List.range count).foldlM (forkTurn L m opts spent) [] = some (times count spent) := by
  let inv : List Nat → List UInt64 → Prop := fun before forks => forks = before.map spent
  have hturn : ∀ before i after forks, before ++ i :: after = List.range count → inv before forks →
      ∃ forks', forkTurn L m opts spent forks i = some forks' ∧ inv (before ++ [i]) forks' := by
    intro before i after forks _ hkept
    obtain ⟨f, hf⟩ := hexact.fork hruns hopts
    refine ⟨forks ++ [spent i], ?_, ?_⟩
    · rw [forkTurn, hf]
      rfl
    · show forks ++ [spent i] = _
      rw [show forks = before.map spent from hkept, List.map_append, List.map_singleton]
  obtain ⟨forks, hforks, htimes⟩ := exists_foldlM (show inv [] [] from rfl) hturn
  rw [hforks, show forks = (List.range count).map spent from htimes]
  rfl

theorem deserialize_loop (hw : hexact.Runs elf w) (hsaved : L.serialize_to w = some (size, snap))
    (spent : Nat → UInt64) (l : List Nat) (hm : hexact.Runs elf m) (deser : List UInt64) :
    ∃ r, deserializeLoop L snap spent l m deser = (r, deser ++ l.map spent, none) ∧ hexact.Runs elf r := by
  induction l generalizing m deser with
  | nil => exact ⟨m, by rw [deserializeLoop, List.map_nil, List.append_nil], hm⟩
  | cons i rest ih =>
      obtain ⟨r, hr, hruns, -⟩ := hexact.deserialize hw hsaved hm
      obtain ⟨r', hr', hruns'⟩ := ih hruns (deser ++ [spent i])
      refine ⟨r', ?_, hruns'⟩
      rw [deserializeLoop, hr]
      simp only [ne_eq, not_true_eq_false, if_false, hr', List.map_cons, List.append_assoc, List.singleton_append]

theorem rewind_loop (hw : hexact.Runs elf w) (hsaved : L.serialize_to w = some (size, snap))
    (spent : Nat → UInt64) (l : List Nat) {s : σ × List UInt64} (hs : hexact.Runs elf s.1) :
    hexact.Runs elf (l.foldl (rewindTurn L snap spent) s).1 ∧
      (l.foldl (rewindTurn L snap spent) s).2 = s.2 ++ l.map spent := by
  induction l generalizing s with
  | nil => exact ⟨hs, by simp⟩
  | cons i rest ih =>
      obtain ⟨r, hr, hruns, -⟩ := hexact.deserialize hw hsaved hs
      have hticks : ∀ (ticks : List Nat) (m : σ), hexact.Runs elf m →
          hexact.Runs elf (ticks.foldl (fun m _ => L.simulate 1000000 m) m) := by
        intro ticks
        induction ticks with
        | nil => exact fun m hm => hm
        | cons t ticks ih => exact fun m hm => ih _ (hexact.simulate 1000000 hm)
      have hturn : hexact.Runs elf (rewindTurn L snap spent s i).1 := by
        rw [rewindTurn, hr]
        exact hticks (List.range 7) r hruns
      obtain ⟨hend, htimes⟩ := ih hturn
      refine ⟨hend, ?_⟩
      rw [List.foldl_cons, htimes, rewindTurn, List.map_cons, List.append_assoc, List.singleton_append]

/-- A replay ends as the saved machine does when it just runs on. -/
theorem replay_exact (hw : hexact.Runs elf w) (hsaved : L.serialize_to w = some (size, snap))
    (hm : hexact.Runs elf m) : ∃ r,
    replay L snap m = (runAndHash (L.cpu (L.simulate 3000000 w)), r) ∧ hexact.Runs elf r := by
  obtain ⟨r, hr, hruns, hsame⟩ := hexact.deserialize hw hsaved hm
  refine ⟨L.simulate 3000000 r, ?_, hexact.simulate _ hruns⟩
  have hcpu := hexact.same_cpu (hexact.same_simulate 3000000 hsame)
  rw [replay, hr]
  simp only [hcpu]

/-- What is printed for a guest that starts as `m`: full sets of samples, the snapshot of
the warmed machine, and twice the hash of the machine that just ran on from there. -/
structure Replayed (L : Libriscv σ) (label : String) (elf : List UInt8) (mem_mb : UInt64)
    (spent : Nat → Nat → UInt64) (m : σ) (block : List Printed) : Prop where
  lines : ∃ size snap serLine deserLine forkLine rewindLine,
    L.serialize_to (L.simulate 2000000 m) = some (size, snap) ∧
    Summarises serLine "serialize_to" (times 200 (spent 0)) ∧
    Summarises deserLine "deserialize_from (rewind)" (times 200 (spent 1)) ∧
    Summarises forkLine "fork construct (CoW)" (times 200 (spent 2)) ∧
    Summarises rewindLine "rewind 7 ticks @1M instr" (times 50 (spent 3)) ∧
    block = [.guest label elf.length mem_mb, .snapshot size, .window size, .measured serLine,
      .measured deserLine, .measured forkLine, .measured rewindLine,
      .determinism true (runAndHash (L.cpu (L.simulate 3000000 (L.simulate 2000000 m))))
        (runAndHash (L.cpu (L.simulate 3000000 (L.simulate 2000000 m))))]

theorem measure_replayed (hexact : BitExact L) (label : String) (hne : elf ≠ []) {mem_mb : UInt64}
    (hboot : L.boot elf (optionsOf mem_mb) = some m) (spent : Nat → Nat → UInt64) :
    ∃ block, measure L label elf mem_mb spent = some block ∧ Replayed L label elf mem_mb spent m block := by
  have hw := hexact.simulate 2000000 (hexact.boot rfl hboot)
  obtain ⟨size, snap, hsaved⟩ := hexact.serialize hw
  obtain ⟨m₁, hdeser, hm₁⟩ := deserialize_loop hexact hw hsaved (spent 1) (List.range 200) hw []
  obtain ⟨hm₂, hrewind⟩ := rewind_loop hexact hw hsaved (spent 3) (List.range 50) (s := (m₁, [])) hm₁
  obtain ⟨m₃, hfirst, hm₃⟩ := replay_exact hexact hw hsaved hm₂
  obtain ⟨m₄, hsecond, -⟩ := replay_exact hexact hw hsaved hm₃
  obtain ⟨serLine, ser', hser, hserLine⟩ :=
    exists_report "serialize_to" (times_ne_nil (by decide : 0 < 200) (spent 0))
  obtain ⟨deserLine, deser', hdeserReport, hdeserLine⟩ :=
    exists_report "deserialize_from (rewind)" (times_ne_nil (by decide : 0 < 200) (spent 1))
  obtain ⟨forkLine, forks', hforkReport, hforkLine⟩ :=
    exists_report "fork construct (CoW)" (times_ne_nil (by decide : 0 < 200) (spent 2))
  obtain ⟨rewindLine, rewind', hrewindReport, hrewindLine⟩ :=
    exists_report "rewind 7 ticks @1M instr" (times_ne_nil (by decide : 0 < 50) (spent 3))
  refine ⟨_, ?_, ⟨size, snap, serLine, deserLine, forkLine, rewindLine, hsaved, hserLine, hdeserLine,
    hforkLine, hrewindLine, rfl⟩⟩
  have hforks := fork_loop hexact hm₁ (show (optionsOf mem_mb).use_memory_arena = false from rfl) (spent 2) 200
  have hpush : [] ++ (List.range 200).map (spent 1) = times 200 (spent 1) := List.nil_append _
  have hrewinds : ((List.range 50).foldl (rewindTurn L snap (spent 3)) (m₁, [])).2 = times 50 (spent 3) := by
    rw [hrewind, List.nil_append]
    rfl
  rw [hpush] at hdeser
  rw [measure, if_neg hne]
  simp only [hboot, serialize_loop hsaved (spent 0) (by decide : 0 < 200), hser, hdeser, hdeserReport,
    hforks, hforkReport, hrewinds, hrewindReport, hfirst, hsecond, Option.bind_eq_bind, Option.bind_some,
    beq_self_eq_true]
  rfl

def GuestBlock (L : Libriscv σ) (load : String → List UInt8) (spent : Nat → Nat → Nat → UInt64) (argc : Nat)
    (guest : String × Nat) (block : List Printed) : Prop :=
  (load guest.1 = [] ∧ block = [.cannotRead guest.1]) ∨
    ∃ m, L.boot (load guest.1) (optionsOf (arenaOf argc guest.2)) = some m ∧
      Replayed L guest.1 (load guest.1) (arenaOf argc guest.2) (spent guest.2) m block

/-- The constructor takes every guest that can be read, with the arena that `main` asks for. -/
def Boots (L : Libriscv σ) (load : String → List UInt8) (args : List String) : Prop :=
  ∀ guest ∈ args.zipIdx 1, load guest.1 ≠ [] →
    ∃ m, L.boot (load guest.1) (optionsOf (arenaOf (args.length + 1) guest.2)) = some m

theorem exists_measure_iff (hexact : BitExact L) (load : String → List UInt8) (label : String)
    (mem_mb : UInt64) (spent : Nat → Nat → UInt64) :
    (∃ block, measure L label (load label) mem_mb spent = some block) ↔
      (load label ≠ [] → ∃ m, L.boot (load label) (optionsOf mem_mb) = some m) := by
  by_cases hempty : load label = []
  · rw [measure, if_pos hempty]
    exact iff_of_true ⟨_, rfl⟩ fun hne => absurd hempty hne
  · constructor
    · intro h _
      obtain ⟨block, hblock⟩ := h
      rw [measure, if_neg hempty] at hblock
      obtain ⟨m, hm, -⟩ := Option.bind_eq_some_iff.mp hblock
      exact ⟨m, hm⟩
    · intro h
      obtain ⟨m, hm⟩ := h hempty
      obtain ⟨block, hblock, -⟩ := measure_replayed hexact label hempty hm spent
      exact ⟨block, hblock⟩

theorem guestBlock_of_measure (hexact : BitExact L) {load : String → List UInt8}
    {spent : Nat → Nat → Nat → UInt64} {argc : Nat} {guest : String × Nat} {block : List Printed}
    (h : measure L guest.1 (load guest.1) (arenaOf argc guest.2) (spent guest.2) = some block) :
    GuestBlock L load spent argc guest block := by
  by_cases hempty : load guest.1 = []
  · rw [measure, if_pos hempty] at h
    exact Or.inl ⟨hempty, (Option.some.inj h).symm⟩
  · obtain ⟨m, hm⟩ := (exists_measure_iff hexact load guest.1 _ _).mp ⟨block, h⟩ hempty
    obtain ⟨block', hblock', hreplayed⟩ := measure_replayed hexact guest.1 hempty hm (spent guest.2)
    obtain rfl := Option.some.inj (h.symm.trans hblock')
    exact Or.inr ⟨m, hm, hreplayed⟩

theorem main_eq_some_iff (L : Libriscv σ) (load : String → List UInt8) (spent : Nat → Nat → Nat → UInt64)
    (args : List String) (printed : List Printed) :
    main L load spent args = some printed ↔
      ∃ blocks, printed = .start :: blocks.flatten ++ [.done] ∧
        List.Forall₂ (fun guest block => measure L guest.1 (load guest.1) (arenaOf (args.length + 1) guest.2)
          (spent guest.2) = some block) (args.zipIdx 1) blocks := by
  constructor
  · intro h
    obtain ⟨lines, hlines, hdone⟩ := Option.bind_eq_some_iff.mp h
    obtain rfl := Option.some.inj hdone
    obtain ⟨blocks, rfl, hblocks⟩ := foldlM_blocks_eq_some_iff.mp hlines
    exact ⟨blocks, rfl, hblocks⟩
  · intro h
    obtain ⟨blocks, rfl, hblocks⟩ := h
    exact Option.bind_eq_some_iff.mpr ⟨_, foldlM_blocks_eq_some_iff.mpr ⟨blocks, rfl, hblocks⟩, rfl⟩

/-- The program comes to its end iff the constructor throws at no guest.  Every guest that
can be read is then replayed as it ran, and the others are named. -/
theorem main_replays (hexact : BitExact L) (load : String → List UInt8)
    (spent : Nat → Nat → Nat → UInt64) (args : List String) :
    ((∃ printed, main L load spent args = some printed) ↔ Boots L load args) ∧
    ∀ printed, main L load spent args = some printed →
      ∃ blocks, printed = .start :: blocks.flatten ++ [.done] ∧
        List.Forall₂ (GuestBlock L load spent (args.length + 1)) (args.zipIdx 1) blocks := by
  have hboots : (∃ blocks, List.Forall₂ (fun guest block => measure L guest.1 (load guest.1)
      (arenaOf (args.length + 1) guest.2) (spent guest.2) = some block) (args.zipIdx 1) blocks) ↔
      Boots L load args := by
    rw [exists_forall₂_iff]
    exact forall₂_congr fun guest _ => exists_measure_iff hexact load guest.1 _ _
  simp only [main_eq_some_iff, ← hboots]
  refine ⟨⟨?_, ?_⟩, ?_⟩
  · intro h
    obtain ⟨printed, blocks, -, hblocks⟩ := h
    exact ⟨blocks, hblocks⟩
  · intro h
    obtain ⟨blocks, hblocks⟩ := h
    exact ⟨_, blocks, rfl, hblocks⟩
  · intro printed h
    obtain ⟨blocks, hprinted, hblocks⟩ := h
    exact ⟨blocks, hprinted, hblocks.imp fun _ _ hblock => guestBlock_of_measure hexact hblock⟩

end Exact

/-- The state is the guest and a program counter, which is all a snapshot has. -/
def counter : Libriscv (List UInt8 × UInt8) where
  boot elf _ := some (elf, 0)
  simulate n m := (m.1, m.2 + n.toUInt8)
  serialize_to m := some (1, [m.2])
  deserialize_from snap m :=
    match snap with
    | [pc] => (0, (m.1, pc))
    | _ => (-1, m)
  fork m _ := some m
  cpu m := ⟨fun _ => 0, m.2.toUInt64⟩

def counter_bitExact : BitExact counter where
  Runs elf m := m.1 = elf
  Same m m' := m = m'
  boot _ hboot := by
    cases hboot
    rfl
  simulate _ hruns := hruns
  serialize _ := ⟨1, _, rfl⟩
  deserialize := by
    rintro elf m m' size snap hm hsaved hm'
    cases hsaved
    exact ⟨(m'.1, m.2), rfl, hm', Prod.ext (hm'.trans hm.symm) rfl⟩
  fork _ _ := ⟨_, rfl⟩
  same_simulate _ hsame := by rw [hsame]
  same_cpu hsame := by rw [hsame]

def loadOne (path : String) : List UInt8 := if path = "guest.elf" then [0x7F] else []

theorem main_replays_counter : ∃ blocks,
    main counter loadOne (fun _ _ _ => 0) ["guest.elf", "missing.elf"] =
      some (.start :: blocks.flatten ++ [.done]) ∧
    List.Forall₂ (GuestBlock counter loadOne (fun _ _ _ => 0) 3) [("guest.elf", 1), ("missing.elf", 2)] blocks := by
  obtain ⟨hends, hblocks⟩ :=
    main_replays counter_bitExact loadOne (fun _ _ _ => 0) ["guest.elf", "missing.elf"]
  obtain ⟨printed, hprinted⟩ := hends.mpr fun _ _ _ => ⟨_, rfl⟩
  obtain ⟨blocks, rfl, hguests⟩ := hblocks printed hprinted
  exact ⟨blocks, hprinted, hguests⟩

end Rollback
