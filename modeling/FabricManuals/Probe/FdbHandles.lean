import FabricManuals.Lib.Handles
import FabricManuals.Probe.FdbProbes

/-! # The handles of the FoundationDB probes

`fdbpub.c` and `pointget.c` once more, now with every call that obtains, takes or gives
back a transaction or a future. -/
set_option autoImplicit false

namespace Fdb

open SampleBuffer Handles

/-- The transaction pointer stays unwritten when the call fails. -/
def fdb_database_create_transaction (db : Pointer) (e : fdb_error_t) : Prog Pointer := do
  use db
  create (e = 0)

abbrev fdb_transaction_set (tr : Pointer) : Prog Unit := use tr

abbrev fdb_transaction_atomic_op (tr : Pointer) : Prog Unit := use tr

/-- The calls of a transaction that return a future always return one. -/
def futureOf (tr : Pointer) : Prog Pointer := do
  use tr
  create true

abbrev fdb_transaction_commit (tr : Pointer) : Prog Pointer := futureOf tr

abbrev fdb_transaction_watch (tr : Pointer) : Prog Pointer := futureOf tr

abbrev fdb_transaction_get (tr : Pointer) : Prog Pointer := futureOf tr

abbrev fdb_future_block_until_ready (f : Pointer) : Prog Unit := use f

abbrev fdb_future_is_ready (f : Pointer) : Prog Unit := use f

abbrev fdb_future_get_error (f : Pointer) : Prog Unit := use f

abbrev fdb_future_get_value (f : Pointer) : Prog Unit := use f

abbrev fdb_future_destroy (f : Pointer) : Prog Unit := destroy f

abbrev fdb_transaction_destroy (tr : Pointer) : Prog Unit := destroy tr

def fillWith {ι : Type} (turn : ι → Prog (Turn Sample)) :
    List ι → Cells Sample → Nat → Prog (Cells Sample × Nat)
  | [], s, n => pure (s, n)
  | i :: rest, s, n => do
    match ← turn i with
    | .store x => fillWith turn rest (store s n x) (n + 1)
    | .skip => fillWith turn rest s n
    | .leave => pure (s, n)
    | .undefined => failure

def measureWith {ι β : Type} (turn : ι → Prog (Turn Sample)) (inputs : List ι)
    (report : String → Cells Sample → Nat → Option (β × Cells Sample)) (name : String)
    (s : Cells Sample) : Prog (Call × Cells Sample) := do
  let filled ← fillWith turn inputs s 0
  match report name filled.1 filled.2 with
  | none => failure
  | some (_, sorted) => pure (⟨name, filled.1.take filled.2⟩, sorted)

section
variable {β : Type} {live : Finset Nat} {post : β → Finset Nat → Prop} {db tr : Nat}
  {k : Pointer → Prog β}

theorem ends_create_transaction {e : fdb_error_t} (hdb : db ∈ live) (he : e = 0)
    (h : ∀ tr, tr ∉ live → Ends (insert tr live) (k (some tr)) post) :
    Ends live (fdb_database_create_transaction (some db) e >>= k) post := by
  rw [fdb_database_create_transaction, bind_assoc, he]
  exact ends_use hdb (ends_create h)

theorem ends_create_transaction_failed {e : fdb_error_t} (hdb : db ∈ live) (he : e ≠ 0)
    (h : Ends live (k none) post) :
    Ends live (fdb_database_create_transaction (some db) e >>= k) post := by
  rw [fdb_database_create_transaction, bind_assoc, decide_eq_false he]
  exact ends_use hdb (ends_create_failed h)

theorem undefined_create_transaction_failed {e : fdb_error_t} (hdb : db ∈ live) (he : e ≠ 0)
    (h : Undefined live (k none)) :
    Undefined live (fdb_database_create_transaction (some db) e >>= k) := by
  have hcreate : Ends live (fdb_database_create_transaction (some db) e) fun p live' =>
      p = none ∧ live' = live := by
    simpa using ends_create_transaction_failed (k := pure) hdb he (ends_pure ⟨rfl, rfl⟩)
  refine hcreate.bind_undefined ?_
  rintro _ _ ⟨rfl, rfl⟩
  exact h

theorem ends_futureOf (htr : tr ∈ live)
    (h : ∀ f, f ∉ live → Ends (insert f live) (k (some f)) post) :
    Ends live (futureOf (some tr) >>= k) post := by
  rw [futureOf, bind_assoc]
  exact ends_use htr (ends_create h)

theorem undefined_futureOf : Undefined live (futureOf none) := undefined_use.bind _

/-- A loop whose turns leave the handles as they were does with the buffer what the
loop without handles does. -/
theorem ends_fillWith {ι : Type} {turn : ι → Turn Sample} {traced : ι → Prog (Turn Sample)}
    {inputs : List ι}
    (hturn : ∀ i ∈ inputs, Ends live (traced i) fun t live' => t = turn i ∧ live' = live)
    {s : Cells Sample} {n : Nat} {filled : Cells Sample × Nat}
    (hfill : fill turn inputs s n = some filled) :
    Ends live (fillWith traced inputs s n) fun result live' => result = filled ∧ live' = live := by
  induction inputs generalizing s n with
  | nil =>
      rw [fill, Option.some_inj] at hfill
      exact ends_pure ⟨hfill, rfl⟩
  | cons i rest ih =>
      obtain ⟨hi, hrest⟩ := List.forall_mem_cons.mp hturn
      refine hi.bind ?_
      rintro _ _ ⟨rfl, rfl⟩
      rw [fill] at hfill
      cases ht : turn i with
      | store x =>
          rw [ht] at hfill
          exact ih hrest hfill
      | skip =>
          rw [ht] at hfill
          exact ih hrest hfill
      | leave =>
          rw [ht, Option.some_inj] at hfill
          exact ends_pure ⟨hfill, rfl⟩
      | undefined =>
          rw [ht] at hfill
          cases hfill

theorem undefined_fillWith {ι : Type} {traced : ι → Prog (Turn Sample)} {inputs : List ι}
    (hturn : ∀ i ∈ inputs, Undefined live (traced i) ∨
      ∃ x, Ends live (traced i) fun t live' => t = .store x ∧ live' = live)
    (hbad : ∃ i ∈ inputs, Undefined live (traced i)) (s : Cells Sample) (n : Nat) :
    Undefined live (fillWith traced inputs s n) := by
  induction inputs generalizing s n with
  | nil =>
      obtain ⟨i, hi, -⟩ := hbad
      cases hi
  | cons i rest ih =>
      obtain ⟨hi, hrest⟩ := List.forall_mem_cons.mp hturn
      rcases hi with hundefined | ⟨x, hends⟩
      · exact hundefined.bind _
      · obtain ⟨j, hj, hundefined⟩ := hbad
        rcases List.mem_cons.mp hj with rfl | hlater
        · exact hundefined.bind _
        · refine hends.bind_undefined ?_
          rintro _ _ ⟨rfl, rfl⟩
          exact ih hrest ⟨j, hlater, hundefined⟩ _ _

theorem ends_measureWith {ι γ : Type} {turn : ι → Turn Sample} {traced : ι → Prog (Turn Sample)}
    {inputs : List ι}
    (hturn : ∀ i ∈ inputs, Ends live (traced i) fun t live' => t = turn i ∧ live' = live)
    (hdefined : Defined turn inputs)
    (report : String → Cells Sample → Nat → Option (γ × Cells Sample)) (name : String)
    {s : Cells Sample} (hroom : inputs.length ≤ s.length)
    (hreport : ∀ s, Holds s (samples turn inputs) →
      ∃ line s', report name s (samples turn inputs).length = some (line, s') ∧ s'.length = s.length) :
    Ends live (measureWith traced inputs report name s) fun result live' =>
      result.1 = ⟨name, (samples turn inputs).map some⟩ ∧ result.2.length = s.length ∧ live' = live := by
  obtain ⟨filled, hfill, hholds, hlen⟩ :=
    fill_of_defined hdefined (holds_nil s) (by simpa using hroom)
  rw [List.nil_append] at hfill hholds
  obtain ⟨line, sorted, hline, hsorted⟩ := hreport filled hholds
  have htake : filled.take (samples turn inputs).length = (samples turn inputs).map some := by
    obtain ⟨rest, rfl⟩ := hholds
    rw [List.take_append_of_le_length (by rw [List.length_map]),
      List.take_of_length_le (by rw [List.length_map])]
  rw [List.length_nil] at hfill
  refine (ends_fillWith hturn hfill).bind ?_
  rintro _ _ ⟨rfl, rfl⟩
  simp only [hline]
  exact ends_pure ⟨by rw [htake], hsorted.trans hlen, rfl⟩

end

end Fdb

/-! ## `fdbpub.c` -/

namespace Fdbpub.Traced

open SampleBuffer Handles Fdb

def commit_kv (db : Pointer) (o : KvOutcome) : Prog (Int × Option UInt64) := do
  let tr ← fdb_database_create_transaction db o.create
  if o.create ≠ 0 then
    pure (-1, none)
  else
    fdb_transaction_set tr
    let f ← fdb_transaction_commit tr
    fdb_future_block_until_ready f
    fdb_future_get_error f
    fdb_future_destroy f
    fdb_transaction_destroy tr
    pure (if o.commit ≠ 0 then -1 else 0, some (o.t1 - o.t0))

def commitTurn (db : Pointer) (o : KvOutcome) : Prog (Turn Sample) := do
  let result ← commit_kv db o
  pure <| match result with
    | (0, some dt) => .store ⟨dt, o.awaited⟩
    | _ => .skip

def watchTurn (db : Pointer) (o : WatchOutcome) : Prog (Turn Sample) := do
  let wt ← fdb_database_create_transaction db o.create
  if o.create ≠ 0 then
    pure .leave
  else
    let w ← fdb_transaction_watch wt
    let wc ← fdb_transaction_commit wt
    fdb_future_block_until_ready wc
    fdb_future_destroy wc
    fdb_transaction_destroy wt
    let published ← commit_kv db o.publish
    if published.1 ≠ 0 then
      fdb_future_destroy w
      pure .leave
    else
      fdb_future_block_until_ready w
      fdb_future_destroy w
      pure (.store ⟨o.t1 - o.t0, o.wc :: o.publish.awaited ++ [o.w]⟩)

def WATCHES_TRY : Nat := 12000

/-- `we` is the error of a watch that is ready. -/
structure HoldOutcome where
  create : fdb_error_t
  ce : fdb_error_t
  ready : Bool
  we : fdb_error_t

structure Held where
  ws : List Pointer
  last : fdb_error_t

/-- 3. how many concurrent watches before FDB refuses -/
def holdTurn (db : Pointer) (o : HoldOutcome) (b : Held) : Prog (Next Held) := do
  let t2 ← fdb_database_create_transaction db o.create
  if o.create ≠ 0 then
    pure (.stop b)
  else
    let w ← fdb_transaction_watch t2
    let c ← fdb_transaction_commit t2
    fdb_future_block_until_ready c
    fdb_future_get_error c
    fdb_future_destroy c
    fdb_transaction_destroy t2
    if o.ce ≠ 0 then
      fdb_future_destroy w
      pure (.stop { b with last := o.ce })
    else
      fdb_future_is_ready w
      if o.ready then
        fdb_future_get_error w
        if o.we ≠ 0 then
          fdb_future_destroy w
          pure (.stop { b with last := o.we })
        else
          pure (.go { b with ws := b.ws ++ [w] })
      else
        pure (.go { b with ws := b.ws ++ [w] })

def logTurn (db : Pointer) (o : LogOutcome) : Prog (Turn Sample) := do
  let tr ← fdb_database_create_transaction db o.create
  if o.create ≠ 0 then
    pure .leave
  else
    fdb_transaction_atomic_op tr
    let f ← fdb_transaction_commit tr
    fdb_future_block_until_ready f
    fdb_future_get_error f
    fdb_future_destroy f
    fdb_transaction_destroy tr
    pure (if o.f = 0 then .store ⟨o.t1 - o.t0, [o.f]⟩ else .skip)

structure Outcomes extends Fdbpub.Outcomes where
  holds : Nat → HoldOutcome

structure Printed where
  calls : List Call
  held : Nat
  last : fdb_error_t

def sections (db : Pointer) (o : Outcomes) : Prog Printed := do
  let commits ← measureWith (commitTurn db) ((List.range COMMITS).map o.commits)
    (Fdb.report Sample.value) "commit (publish)" (malloc COMMITS)
  let fires ← measureWith (watchTurn db) ((List.range 100).map o.watches)
    (Fdb.report Sample.value) "watch fire (pub->sub)" commits.2
  let bt ← fdb_database_create_transaction db o.bt
  let b ← turns (fun i => holdTurn db (o.holds i)) 0 WATCHES_TRY ⟨[], 0⟩
  destroyAll b.ws
  fdb_transaction_destroy bt
  let appends ← measureWith (logTurn db) ((List.range COMMITS).map o.log)
    (Fdb.report Sample.value) "versionstamp log append" fires.2
  pure ⟨[commits.1, fires.1, appends.1], b.ws.length, b.last⟩

/-- Without a database nothing is measured. -/
def main (o : Outcomes) : Prog (Option Printed) := do
  let db ← create (o.database = 0)
  if o.database ≠ 0 then
    pure none
  else
    let printed ← sections db o
    pure (some printed)

section
variable {live : Finset Nat} {db : Nat}

theorem ends_commit_kv (hdb : db ∈ live) (o : KvOutcome) :
    Ends live (commit_kv (some db) o) fun r live' => r = Fdbpub.commit_kv o ∧ live' = live := by
  by_cases hcreate : o.create = 0
  · refine ends_create_transaction hdb hcreate fun tr htr => ?_
    rw [if_neg (not_not_intro hcreate)]
    refine ends_use (Finset.mem_insert_self _ _) (ends_futureOf (Finset.mem_insert_self _ _) fun f hf => ?_)
    refine ends_use (Finset.mem_insert_self _ _) (ends_use (Finset.mem_insert_self _ _) ?_)
    refine ends_destroy hf (ends_destroy htr (ends_pure ⟨?_, rfl⟩))
    rw [Fdbpub.commit_kv, if_neg (not_not_intro hcreate)]
  · refine ends_create_transaction_failed hdb hcreate ?_
    rw [if_pos hcreate]
    refine ends_pure ⟨?_, rfl⟩
    rw [Fdbpub.commit_kv, if_pos hcreate]

theorem ends_commitTurn (hdb : db ∈ live) (o : KvOutcome) :
    Ends live (commitTurn (some db) o) fun t live' => t = Fdbpub.commitTurn o ∧ live' = live := by
  refine (ends_commit_kv hdb o).bind ?_
  rintro _ _ ⟨rfl, rfl⟩
  exact ends_pure ⟨rfl, rfl⟩

theorem ends_watchTurn (hdb : db ∈ live) (o : WatchOutcome) :
    Ends live (watchTurn (some db) o) fun t live' => t = Fdbpub.watchTurn o ∧ live' = live := by
  rw [Fdbpub.watchTurn]
  by_cases hcreate : o.create = 0
  · refine ends_create_transaction hdb hcreate fun wt hwt => ?_
    rw [if_neg (not_not_intro hcreate), if_neg (not_not_intro hcreate)]
    refine ends_futureOf (Finset.mem_insert_self _ _) fun w hw => ?_
    refine ends_futureOf (by simp) fun wc hwc => ?_
    refine ends_use (Finset.mem_insert_self _ _) (ends_destroy hwc ?_)
    -- the watch is younger than its transaction and outlives it
    rw [Finset.mem_insert, not_or] at hw
    rw [Finset.insert_comm]
    refine ends_destroy (by simp [hwt, Ne.symm hw.1]) ?_
    refine (ends_commit_kv (Finset.mem_insert_of_mem hdb) o.publish).bind ?_
    rintro _ _ ⟨rfl, rfl⟩
    split
    · exact ends_destroy hw.2 (ends_pure ⟨rfl, rfl⟩)
    · exact ends_use (Finset.mem_insert_self _ _) (ends_destroy hw.2 (ends_pure ⟨rfl, rfl⟩))
  · refine ends_create_transaction_failed hdb hcreate ?_
    rw [if_pos hcreate, if_pos hcreate]
    exact ends_pure ⟨rfl, rfl⟩

theorem ends_logTurn (hdb : db ∈ live) (o : LogOutcome) :
    Ends live (logTurn (some db) o) fun t live' => t = Fdbpub.logTurn o ∧ live' = live := by
  rw [Fdbpub.logTurn]
  by_cases hcreate : o.create = 0
  · refine ends_create_transaction hdb hcreate fun tr htr => ?_
    rw [if_neg (not_not_intro hcreate), if_neg (not_not_intro hcreate)]
    refine ends_use (Finset.mem_insert_self _ _) (ends_futureOf (Finset.mem_insert_self _ _) fun f hf => ?_)
    refine ends_use (Finset.mem_insert_self _ _) (ends_use (Finset.mem_insert_self _ _) ?_)
    exact ends_destroy hf (ends_destroy htr (ends_pure ⟨rfl, rfl⟩))
  · refine ends_create_transaction_failed hdb hcreate ?_
    rw [if_pos hcreate, if_pos hcreate]
    exact ends_pure ⟨rfl, rfl⟩

end

/-! ### The watches held -/

def HoldOutcome.kept (o : HoldOutcome) : Bool :=
  o.create = 0 ∧ o.ce = 0 ∧ ¬ (o.ready = true ∧ o.we ≠ 0)

/-- `last` after a turn that leaves the loop; a failed create stores nothing in it. -/
def HoldOutcome.stoppedAt (o : HoldOutcome) : fdb_error_t :=
  if o.create ≠ 0 then 0 else if o.ce ≠ 0 then o.ce else o.we

theorem stoppedAt_eq_zero_iff {o : HoldOutcome} (h : o.kept = false) : o.stoppedAt = 0 ↔ o.create ≠ 0 := by
  have hnot := of_decide_eq_false h
  rw [HoldOutcome.stoppedAt]
  constructor
  · rintro hzero hcreate
    rw [if_neg (not_not_intro hcreate)] at hzero
    by_cases hce : o.ce = 0
    · rw [if_neg (not_not_intro hce)] at hzero
      exact hnot ⟨hcreate, hce, fun hready => hready.2 hzero⟩
    · rw [if_pos hce] at hzero
      exact hce hzero
  · exact fun hcreate => if_pos hcreate

/-- What the third section prints: it held the watches of its first turns, and if the
next turn was made, that turn left the loop. -/
structure Stopped (holds : Nat → HoldOutcome) (held : Nat) (last : fdb_error_t) : Prop where
  le_try : held ≤ WATCHES_TRY
  kept : ∀ i < held, (holds i).kept = true
  next : held < WATCHES_TRY → (holds held).kept = false ∧ last = (holds held).stoppedAt
  cap : held = WATCHES_TRY → last = 0

structure Holding (live : Finset Nat) (gs : List Nat) (ws : List Pointer) (live' : Finset Nat) : Prop where
  ws_eq : ws = gs.map some
  nodup : gs.Nodup
  notMem : ∀ g ∈ gs, g ∉ live
  live_eq : live' = live ∪ gs.toFinset

theorem Holding.snoc {live live' : Finset Nat} {gs : List Nat} {ws : List Pointer}
    (h : Holding live gs ws live') {w : Nat} (hw : w ∉ live') :
    Holding live (gs ++ [w]) (ws ++ [some w]) (insert w live') := by
  obtain ⟨rfl, hnodup, hnot, rfl⟩ := h
  rw [Finset.mem_union, not_or, List.mem_toFinset] at hw
  constructor
  · rw [List.map_append, List.map_singleton]
  · exact List.nodup_append.mpr ⟨hnodup, List.nodup_singleton w, by
      rintro a ha b hb rfl
      exact hw.2 (List.mem_singleton.mp hb ▸ ha)⟩
  · intro g hg
    rcases List.mem_append.mp hg with hg | hg
    · exact hnot g hg
    · exact List.mem_singleton.mp hg ▸ hw.1
  · ext g
    simp

section
variable {live : Finset Nat} {db : Nat}

/-- A turn holds its watch, or leaves the loop with every handle of it given back. -/
theorem ends_holdTurn (hdb : db ∈ live) (o : HoldOutcome) {b : Held} (hb : b.last = 0) :
    Ends live (holdTurn (some db) o b) fun r live' =>
      (o.kept = true ∧ ∃ w, w ∉ live ∧ r = .go ⟨b.ws ++ [some w], 0⟩ ∧ live' = insert w live) ∨
      (o.kept = false ∧ r = .stop ⟨b.ws, o.stoppedAt⟩ ∧ live' = live) := by
  obtain ⟨ws, _⟩ := b
  subst hb
  by_cases hcreate : o.create = 0
  · refine ends_create_transaction hdb hcreate fun t2 ht2 => ?_
    rw [if_neg (not_not_intro hcreate)]
    refine ends_futureOf (Finset.mem_insert_self _ _) fun w hw => ?_
    refine ends_futureOf (by simp) fun c hc => ?_
    refine ends_use (Finset.mem_insert_self _ _) (ends_use (Finset.mem_insert_self _ _) ?_)
    refine ends_destroy hc ?_
    rw [Finset.mem_insert, not_or] at hw
    rw [Finset.insert_comm]
    refine ends_destroy (by simp [ht2, Ne.symm hw.1]) ?_
    by_cases hce : o.ce = 0
    · rw [if_neg (not_not_intro hce)]
      refine ends_use (Finset.mem_insert_self _ _) ?_
      by_cases hready : o.ready = true
      · rw [if_pos hready]
        refine ends_use (Finset.mem_insert_self _ _) ?_
        by_cases hwe : o.we = 0
        · rw [if_neg (not_not_intro hwe)]
          refine ends_pure (Or.inl ⟨?_, w, hw.2, rfl, rfl⟩)
          simp [HoldOutcome.kept, hcreate, hce, hwe]
        · rw [if_pos hwe]
          refine ends_destroy hw.2 (ends_pure (Or.inr ⟨?_, ?_, rfl⟩))
          · simp [HoldOutcome.kept, hready, hwe]
          · simp [HoldOutcome.stoppedAt, hcreate, hce]
      · rw [if_neg hready]
        refine ends_pure (Or.inl ⟨?_, w, hw.2, rfl, rfl⟩)
        simp [HoldOutcome.kept, hcreate, hce, hready]
    · rw [if_pos hce]
      refine ends_destroy hw.2 (ends_pure (Or.inr ⟨?_, ?_, rfl⟩))
      · simp [HoldOutcome.kept, hce]
      · simp [HoldOutcome.stoppedAt, hcreate, hce]
  · refine ends_create_transaction_failed hdb hcreate ?_
    rw [if_pos hcreate]
    refine ends_pure (Or.inr ⟨?_, ?_, rfl⟩)
    · simp [HoldOutcome.kept, hcreate]
    · simp [HoldOutcome.stoppedAt, hcreate]

theorem ends_holdTurns (hdb : db ∈ live) (holds : Nat → HoldOutcome) :
    Ends live (turns (fun i => holdTurn (some db) (holds i)) 0 WATCHES_TRY ⟨[], 0⟩) fun b live' =>
      ∃ gs, Holding live gs b.ws live' ∧ Stopped holds gs.length b.last := by
  -- before turn `i` there are `i` watches; a turn that leaves the loop settles the rest
  let inv : Nat → Held → Finset Nat → Prop := fun i b live' =>
    ∃ gs, Holding live gs b.ws live' ∧ gs.length = i ∧ b.last = 0 ∧ ∀ j < i, (holds j).kept = true
  let left : Held → Finset Nat → Prop := fun b live' =>
    ∃ gs, Holding live gs b.ws live' ∧ Stopped holds gs.length b.last
  have hnone : inv 0 ⟨[], 0⟩ live := ⟨[], ⟨rfl, List.nodup_nil, by simp, by simp⟩, rfl, rfl, by simp⟩
  refine (ends_turns inv left ?_ WATCHES_TRY 0 _ live (Nat.zero_add _) hnone).mono ?_
  · rintro i hi b live' ⟨gs, hgs, rfl, hlast, hkept⟩
    have hdb' : db ∈ live' := hgs.live_eq ▸ Finset.mem_union_left _ hdb
    refine (ends_holdTurn hdb' (holds gs.length) hlast).mono ?_
    rintro r live'' (⟨hkeep, w, hw, rfl, rfl⟩ | ⟨hstop, rfl, rfl⟩)
    · refine ⟨gs ++ [w], hgs.snoc hw, by simp, rfl, fun j hj => ?_⟩
      rcases Nat.lt_succ_iff_lt_or_eq.mp hj with hlt | rfl
      · exact hkept j hlt
      · exact hkeep
    · exact ⟨gs, hgs, hi.le, hkept, fun _ => ⟨hstop, rfl⟩, fun heq => absurd heq hi.ne⟩
  · rintro b live' (⟨gs, hgs, hlen, hlast, hkept⟩ | hleft)
    · exact ⟨gs, hgs, hlen.le, hlen ▸ hkept, fun hlt => absurd hlen hlt.ne, fun _ => hlast⟩
    · exact hleft

end

/-! ### The whole program -/

section
variable {live : Finset Nat} {db : Nat}

theorem ends_commits (hdb : db ∈ live) (o : Outcomes) :
    Ends live (measureWith (commitTurn (some db)) ((List.range COMMITS).map o.commits)
      (Fdb.report Sample.value) "commit (publish)" (malloc COMMITS)) fun result live' =>
      result.1 = ⟨"commit (publish)", (samples Fdbpub.commitTurn ((List.range COMMITS).map o.commits)).map some⟩ ∧
        result.2.length = COMMITS ∧ live' = live := by
  have h := ends_measureWith (fun i _ => ends_commitTurn hdb i)
    (defined_commitTurn ((List.range COMMITS).map o.commits)) (Fdb.report Sample.value)
    "commit (publish)" (s := malloc COMMITS) (by rw [List.length_map, List.length_range, length_malloc])
    (fun s hs => Fdb.report_of_holds _ hs)
  rwa [length_malloc] at h

theorem ends_fires (hdb : db ∈ live) (o : Outcomes) {s : Cells Sample} (hs : s.length = COMMITS) :
    Ends live (measureWith (watchTurn (some db)) ((List.range 100).map o.watches)
      (Fdb.report Sample.value) "watch fire (pub->sub)" s) fun result live' =>
      result.1 = ⟨"watch fire (pub->sub)", (samples Fdbpub.watchTurn ((List.range 100).map o.watches)).map some⟩ ∧
        result.2.length = COMMITS ∧ live' = live := by
  have h := ends_measureWith (fun i _ => ends_watchTurn hdb i)
    (defined_watchTurn ((List.range 100).map o.watches)) (Fdb.report Sample.value)
    "watch fire (pub->sub)" (s := s) (by rw [hs, List.length_map, List.length_range]; decide)
    (fun s hs => Fdb.report_of_holds _ hs)
  rwa [hs] at h

theorem ends_appends (hdb : db ∈ live) (o : Outcomes) {s : Cells Sample} (hs : s.length = COMMITS) :
    Ends live (measureWith (logTurn (some db)) ((List.range COMMITS).map o.log)
      (Fdb.report Sample.value) "versionstamp log append" s) fun result live' =>
      result.1 = ⟨"versionstamp log append", (samples Fdbpub.logTurn ((List.range COMMITS).map o.log)).map some⟩ ∧
        result.2.length = COMMITS ∧ live' = live := by
  have h := ends_measureWith (fun i _ => ends_logTurn hdb i)
    (defined_logTurn ((List.range COMMITS).map o.log)) (Fdb.report Sample.value)
    "versionstamp log append" (s := s) (by rw [hs, List.length_map, List.length_range])
    (fun s hs => Fdb.report_of_holds _ hs)
  rwa [hs] at h

theorem ends_sections {o : Outcomes} (hdb : db ∈ live) (hdatabase : o.database = 0) (hbt : o.bt = 0) :
    Ends live (sections (some db) o) fun p live' =>
      p.calls = Fdbpub.main o.toOutcomes ∧ Stopped o.holds p.held p.last ∧ live' = live := by
  rw [main_of_database hdatabase, if_neg (not_not_intro hbt)]
  refine (ends_commits hdb o).bind ?_
  rintro ⟨commits, s⟩ _ ⟨rfl, hs, rfl⟩
  refine (ends_fires hdb o hs).bind ?_
  rintro ⟨fires, s'⟩ _ ⟨rfl, hs', rfl⟩
  refine ends_create_transaction hdb hbt fun bt hnew => ?_
  refine (ends_holdTurns (Finset.mem_insert_of_mem hdb) o.holds).bind ?_
  rintro ⟨_, last⟩ _ ⟨gs, ⟨rfl, hnodup, hnot, rfl⟩, hstopped⟩
  refine ends_destroyAll hnodup hnot (ends_destroy hnew ?_)
  refine (ends_appends hdb o hs').bind ?_
  rintro ⟨appends, _⟩ _ ⟨rfl, -, rfl⟩
  exact ends_pure ⟨rfl, (List.length_map (f := some)).symm ▸ hstopped, rfl⟩

theorem undefined_sections {o : Outcomes} (hdb : db ∈ live) (hbt : o.bt ≠ 0) :
    Undefined live (sections (some db) o) := by
  refine (ends_commits hdb o).bind_undefined ?_
  rintro ⟨commits, s⟩ _ ⟨rfl, hs, rfl⟩
  refine (ends_fires hdb o hs).bind_undefined ?_
  rintro ⟨fires, s'⟩ live ⟨rfl, hs', rfl⟩
  refine undefined_create_transaction_failed hdb hbt ?_
  refine (ends_holdTurns hdb o.holds).bind_undefined ?_
  rintro ⟨_, last⟩ _ ⟨gs, ⟨rfl, hnodup, hnot, rfl⟩, -⟩
  have hgive : Ends (live ∪ gs.toFinset) (destroyAll (gs.map some)) fun _ live' => live' = live := by
    simpa using ends_destroyAll (k := pure) hnodup hnot (ends_pure rfl)
  exact hgive.bind_undefined fun _ _ _ => undefined_destroy.bind _

end

theorem main_of_no_database {o : Outcomes} (h : o.database ≠ 0) :
    main o Heap.empty = some (none, Heap.empty) := by
  rw [main, decide_eq_false h, bind_run]
  show (if o.database ≠ 0 then _ else _ : Prog (Option Printed)) Heap.empty = _
  rw [if_pos h]
  rfl

theorem main_of_database {o : Outcomes} (h : o.database = 0) :
    main o Heap.empty = (sections (some 0) o Heap.empty.allocate).map fun x => (some x.1, x.2) := by
  rw [main, decide_eq_true h, bind_run]
  show (if o.database ≠ 0 then _ else _ : Prog (Option Printed)) Heap.empty.allocate = _
  rw [if_neg (not_not_intro h), bind_run]
  show Option.bind (sections (some 0) o Heap.empty.allocate) _ = _
  cases sections (some 0) o Heap.empty.allocate <;> rfl

theorem main_of_bt {o : Outcomes} (h : o.database = 0) (hbt : o.bt = 0) :
    ∃ p H, main o Heap.empty = some (some p, H) ∧ p.calls = Fdbpub.main o.toOutcomes ∧
      Stopped o.holds p.held p.last ∧ H.live = {0} := by
  obtain ⟨p, H, hrun, hcalls, hstopped, hlive⟩ :=
    ends_sections (Finset.mem_singleton_self 0) h hbt Heap.empty.allocate rfl
  refine ⟨p, H, ?_, hcalls, hstopped, hlive⟩
  rw [main_of_database h, hrun]
  rfl

theorem main_of_no_bt {o : Outcomes} (h : o.database = 0) (hbt : o.bt ≠ 0) : main o Heap.empty = none := by
  rw [main_of_database h, undefined_sections (Finset.mem_singleton_self 0) hbt Heap.empty.allocate rfl]
  rfl

/-- The program uses only handles it has iff `bt` could be created.  It has then given back
every transaction and every future, each once, and only the database, handle 0, is left. -/
theorem handles_given_back (o : Outcomes) :
    ((main o Heap.empty).isSome = true ↔ (o.database = 0 → o.bt = 0)) ∧
      ∀ printed H, main o Heap.empty = some (printed, H) →
        H.live = (if o.database = 0 then {0} else ∅) ∧
          (printed.elim [] Printed.calls) = Fdbpub.main o.toOutcomes := by
  by_cases h : o.database = 0
  · by_cases hbt : o.bt = 0
    · obtain ⟨p, H, hrun, hcalls, -, hlive⟩ := main_of_bt h hbt
      rw [hrun]
      refine ⟨by simp [hbt], ?_⟩
      rintro _ _ ⟨⟩
      exact ⟨by rw [if_pos h, hlive], hcalls⟩
    · rw [main_of_no_bt h hbt]
      exact ⟨by simp [h, hbt], fun _ _ => nofun⟩
  · rw [main_of_no_database h]
    refine ⟨by simp [h], ?_⟩
    rintro _ _ ⟨⟩
    exact ⟨by rw [if_neg h]; rfl, by rw [Fdbpub.main, if_pos h]; rfl⟩

/-- `no error, hit the try cap` is what the program prints for `last = 0`.  It is then true, or
the program could not create the transaction of the next watch. -/
theorem hit_the_cap_iff {o : Outcomes} {p : Printed} {H : Heap}
    (h : main o Heap.empty = some (some p, H)) :
    p.held ≤ WATCHES_TRY ∧ (∀ i < p.held, (o.holds i).kept = true) ∧
      (p.last = 0 ↔ p.held = WATCHES_TRY ∨ (o.holds p.held).create ≠ 0) := by
  have hstopped : Stopped o.holds p.held p.last := by
    by_cases hdatabase : o.database = 0
    · by_cases hbt : o.bt = 0
      · obtain ⟨p', H', hrun, -, hstopped, -⟩ := main_of_bt hdatabase hbt
        rw [hrun] at h
        cases h
        exact hstopped
      · rw [main_of_no_bt hdatabase hbt] at h
        cases h
    · rw [main_of_no_database hdatabase] at h
      cases h
  refine ⟨hstopped.le_try, hstopped.kept, ?_⟩
  rcases hstopped.le_try.lt_or_eq with hlt | hcap
  · obtain ⟨hnot, hlast⟩ := hstopped.next hlt
    rw [hlast, stoppedAt_eq_zero_iff hnot, or_iff_right hlt.ne]
  · exact ⟨fun _ => Or.inl hcap, fun _ => hstopped.cap hcap⟩

def threeWatches : Outcomes :=
  { noFailure with holds := fun i => ⟨if i < 3 then 0 else 1038, 0, false, 0⟩ }

theorem hit_the_cap_three : ∃ p H, main threeWatches Heap.empty = some (some p, H) ∧
    p.held = 3 ∧ p.last = 0 := by
  obtain ⟨p, H, hrun, -, hstopped, -⟩ := main_of_bt (o := threeWatches) rfl rfl
  obtain ⟨-, hkept, hcap⟩ := hit_the_cap_iff hrun
  have hatMost : p.held ≤ 3 := Nat.le_of_not_lt fun hmore => absurd (hkept 3 hmore) (by decide)
  have hheld : p.held = 3 := by
    obtain ⟨hnot, -⟩ := hstopped.next (hatMost.trans_lt (by decide))
    by_contra hne
    have hfewer : p.held < 3 := lt_of_le_of_ne hatMost hne
    simp [threeWatches, HoldOutcome.kept, hfewer] at hnot
  refine ⟨p, H, hrun, hheld, hcap.mpr (Or.inr ?_)⟩
  rw [hheld]
  decide

end Fdbpub.Traced
