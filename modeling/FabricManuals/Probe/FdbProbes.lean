import FabricManuals.Probe.Report

/-! # The FoundationDB probes, `fdbpub.c` and `pointget.c`

Every call of the client library has its error code in the outcomes, 0 for success, and
a future has the code it became ready with.  A sample keeps, beside its time, the codes
of the futures that were awaited for it. -/
set_option autoImplicit false

namespace Fdb

open SampleBuffer

abbrev fdb_error_t := Int

structure Sample where
  value : UInt64
  awaited : List fdb_error_t
deriving DecidableEq

structure Call where
  name : String
  passed : Cells Sample
deriving DecidableEq

/-- Every element passed is a sample whose futures all became ready without an error. -/
def Call.Timed (call : Call) : Prop :=
  ∀ cell ∈ call.passed, ∃ x, cell = some x ∧ ∀ e ∈ x.awaited, e = 0

/-- A measuring loop, the report on it, and what the program does next with the buffer.
Behind an undefined turn or report there is nothing to say about the program. -/
def measure {ι β : Type} (turn : ι → Turn Sample) (inputs : List ι)
    (report : String → Cells Sample → Nat → Option (β × Cells Sample)) (name : String)
    (s : Cells Sample) (next : Cells Sample → List Call) : List Call :=
  match fill turn inputs s 0 with
  | none => []
  | some (s, n) =>
    ⟨name, s.take n⟩ ::
      match report name s n with
      | none => []
      | some (_, sorted) => next sorted

section
variable {ι β : Type} {turn : ι → Turn Sample} {inputs : List ι}
  {report : String → Cells Sample → Nat → Option (β × Cells Sample)}

theorem measure_of_defined (hdefined : Defined turn inputs) (name : String) {s : Cells Sample}
    (hroom : inputs.length ≤ s.length)
    (hreport : ∀ s, Holds s (samples turn inputs) →
      ∃ line s', report name s (samples turn inputs).length = some (line, s') ∧ s'.length = s.length)
    (next : Cells Sample → List Call) :
    ∃ s', measure turn inputs report name s next =
      ⟨name, (samples turn inputs).map some⟩ :: next s' ∧ s'.length = s.length := by
  obtain ⟨filled, hfill, hholds, hlen⟩ :=
    fill_of_defined hdefined (holds_nil s) (by simpa using hroom)
  rw [List.nil_append] at hfill hholds
  obtain ⟨line, sorted, hline, hsorted⟩ := hreport filled hholds
  refine ⟨sorted, ?_, hsorted.trans hlen⟩
  have htake : filled.take (samples turn inputs).length = (samples turn inputs).map some := by
    obtain ⟨rest, rfl⟩ := hholds
    rw [List.take_append_of_le_length (by rw [List.length_map]),
      List.take_of_length_le (by rw [List.length_map])]
  rw [measure]
  simp only [List.length_nil] at hfill
  simp only [hfill, hline, htake]

theorem measure_of_not_defined (h : ¬ Defined turn inputs) (name : String) (s : Cells Sample)
    (next : Cells Sample → List Call) : measure turn inputs report name s next = [] := by
  rw [measure, fill_of_not_defined h]

theorem timed_iff (name : String) :
    Call.Timed ⟨name, (samples turn inputs).map some⟩ ↔
      ∀ i ∈ reached turn inputs, ∀ x, turn i = .store x → ∀ e ∈ x.awaited, e = 0 := by
  rw [Call.Timed]
  constructor
  · intro h i hi x hx
    obtain ⟨y, hy, hsuccess⟩ := h (some x) (List.mem_map_of_mem (mem_samples.mpr ⟨i, hi, hx⟩))
    obtain rfl := Option.some.inj hy
    exact hsuccess
  · intro h cell hcell
    obtain ⟨x, hx, rfl⟩ := List.mem_map.mp hcell
    obtain ⟨i, hi, hstore⟩ := mem_samples.mp hx
    exact ⟨x, rfl, h i hi x hstore⟩

theorem timed_iff_of_store (name : String) {value : ι → UInt64} {awaited : ι → List fdb_error_t}
    (h : ∀ i ∈ reached turn inputs, turn i = .store ⟨value i, awaited i⟩) :
    Call.Timed ⟨name, (samples turn inputs).map some⟩ ↔
      ∀ i ∈ reached turn inputs, ∀ e ∈ awaited i, e = 0 := by
  rw [timed_iff]
  refine forall₂_congr fun i hi => ?_
  rw [h i hi]
  constructor
  · exact fun hall => hall _ rfl
  · intro hall x hx
    obtain rfl := Turn.store.inj hx
    exact hall

end

end Fdb

/-! ## `fdbpub.c` -/

namespace Fdbpub

open SampleBuffer Fdb

def COMMITS : Nat := 300

structure KvOutcome where
  create : fdb_error_t
  commit : fdb_error_t
  t0 : UInt64
  t1 : UInt64

def commit_kv (o : KvOutcome) : Int × Option UInt64 :=
  if o.create ≠ 0 then (-1, none)
  else (if o.commit ≠ 0 then -1 else 0, some (o.t1 - o.t0))

def KvOutcome.awaited (o : KvOutcome) : List fdb_error_t :=
  if o.create ≠ 0 then [] else [o.commit]

/-- 1. commit latency -/
def commitTurn (o : KvOutcome) : Turn Sample :=
  match commit_kv o with
  | (0, some dt) => .store ⟨dt, o.awaited⟩
  | _ => .skip

structure WatchOutcome where
  create : fdb_error_t
  wc : fdb_error_t
  publish : KvOutcome
  w : fdb_error_t
  t0 : UInt64
  t1 : UInt64

/-- 2. watch fire latency -/
def watchTurn (o : WatchOutcome) : Turn Sample :=
  if o.create ≠ 0 then .leave
  -- the commit of the watch, `wc`, is waited for and destroyed
  else if (commit_kv o.publish).1 ≠ 0 then .leave
  else .store ⟨o.t1 - o.t0, o.wc :: o.publish.awaited ++ [o.w]⟩

structure LogOutcome where
  create : fdb_error_t
  f : fdb_error_t
  t0 : UInt64
  t1 : UInt64

/-- 4. versionstamp event-log append -/
def logTurn (o : LogOutcome) : Turn Sample :=
  if o.create ≠ 0 then .leave
  else if o.f = 0 then .store ⟨o.t1 - o.t0, [o.f]⟩
  else .skip

structure Outcomes where
  database : fdb_error_t
  commits : Nat → KvOutcome
  watches : Nat → WatchOutcome
  bt : fdb_error_t
  log : Nat → LogOutcome

/-- The calls of `report`.  The watches held in between take no samples. -/
def main (o : Outcomes) : List Call :=
  if o.database ≠ 0 then []
  else
    measure commitTurn ((List.range COMMITS).map o.commits) (Fdb.report Sample.value)
      "commit (publish)" (malloc COMMITS) fun s =>
    measure watchTurn ((List.range 100).map o.watches) (Fdb.report Sample.value)
      "watch fire (pub->sub)" s fun s =>
    -- 3. `bt` is destroyed whether it was created or not
    if o.bt ≠ 0 then []
    else
      measure logTurn ((List.range COMMITS).map o.log) (Fdb.report Sample.value)
        "versionstamp log append" s fun _ => []

theorem commitTurn_store {o : KvOutcome} {x : Sample} (h : commitTurn o = .store x) :
    ∀ e ∈ x.awaited, e = 0 := by
  by_cases hcreate : o.create = 0
  · by_cases hcommit : o.commit = 0
    · simp [commitTurn, commit_kv, hcreate, hcommit, KvOutcome.awaited] at h
      simp [← h]
    · simp [commitTurn, commit_kv, hcreate, hcommit] at h
  · simp [commitTurn, commit_kv, hcreate] at h

theorem logTurn_store {o : LogOutcome} {x : Sample} (h : logTurn o = .store x) :
    ∀ e ∈ x.awaited, e = 0 := by
  by_cases hf : o.f = 0
  · rw [logTurn, if_pos hf] at h
    split at h
    · cases h
    · obtain rfl := Turn.store.inj h
      simp [hf]
  · rw [logTurn, if_neg hf] at h
    split at h <;> cases h

def WatchOutcome.published (o : WatchOutcome) : Bool :=
  o.create = 0 ∧ o.publish.create = 0 ∧ o.publish.commit = 0

theorem watchTurn_of_published {o : WatchOutcome} (h : o.published = true) :
    watchTurn o = .store ⟨o.t1 - o.t0, [o.wc, 0, o.w]⟩ := by
  obtain ⟨hcreate, hkv, hcommit⟩ := of_decide_eq_true h
  simp [watchTurn, commit_kv, KvOutcome.awaited, hcreate, hkv, hcommit]

theorem watchTurn_of_not_published {o : WatchOutcome} (h : o.published = false) :
    watchTurn o = .leave := by
  have hnot := of_decide_eq_false h
  by_cases hcreate : o.create = 0
  · by_cases hkv : o.publish.create = 0
    · have hcommit : o.publish.commit ≠ 0 := fun hcommit => hnot ⟨hcreate, hkv, hcommit⟩
      simp [watchTurn, commit_kv, hcreate, hkv, hcommit]
    · simp [watchTurn, commit_kv, hcreate, hkv]
  · simp [watchTurn, hcreate]

theorem reached_watchTurn (inputs : List WatchOutcome) :
    reached watchTurn inputs = inputs.takeWhile WatchOutcome.published := by
  rw [reached]
  congr 1
  funext o
  cases h : o.published with
  | true => rw [watchTurn_of_published h]; rfl
  | false => rw [watchTurn_of_not_published h]; rfl

theorem timed_watches_iff (name : String) (inputs : List WatchOutcome) :
    Call.Timed ⟨name, (samples watchTurn inputs).map some⟩ ↔
      ∀ o ∈ inputs.takeWhile WatchOutcome.published, o.wc = 0 ∧ o.w = 0 := by
  have hstore : ∀ o ∈ reached watchTurn inputs, watchTurn o = .store ⟨o.t1 - o.t0, [o.wc, 0, o.w]⟩ := by
    intro o ho
    rw [reached_watchTurn] at ho
    exact watchTurn_of_published (List.mem_takeWhile_imp ho)
  rw [timed_iff_of_store name hstore, reached_watchTurn]
  simp

theorem defined_commitTurn (inputs : List KvOutcome) : Defined commitTurn inputs := by
  intro o _
  rw [commitTurn]
  split <;> nofun

theorem defined_watchTurn (inputs : List WatchOutcome) : Defined watchTurn inputs := by
  intro o _
  cases h : o.published with
  | true => rw [watchTurn_of_published h]; nofun
  | false => rw [watchTurn_of_not_published h]; nofun

theorem defined_logTurn (inputs : List LogOutcome) : Defined logTurn inputs := by
  intro o _
  rw [logTurn]
  split
  · nofun
  · split <;> nofun

theorem main_of_database {o : Outcomes} (h : o.database = 0) :
    main o =
      ⟨"commit (publish)", (samples commitTurn ((List.range COMMITS).map o.commits)).map some⟩ ::
      ⟨"watch fire (pub->sub)", (samples watchTurn ((List.range 100).map o.watches)).map some⟩ ::
      if o.bt ≠ 0 then []
      else [⟨"versionstamp log append", (samples logTurn ((List.range COMMITS).map o.log)).map some⟩] := by
  rw [main, if_neg (not_not_intro h)]
  obtain ⟨committed, hcommits, hlen⟩ := measure_of_defined
    (defined_commitTurn ((List.range COMMITS).map o.commits)) "commit (publish)" (s := malloc COMMITS)
    (by rw [List.length_map, List.length_range, length_malloc]) (fun s hs => Fdb.report_of_holds _ hs) _
  rw [hcommits]
  rw [length_malloc] at hlen
  obtain ⟨watched, hwatches, hlen'⟩ := measure_of_defined
    (defined_watchTurn ((List.range 100).map o.watches)) "watch fire (pub->sub)" (s := committed)
    (by rw [hlen, List.length_map, List.length_range]; decide) (fun s hs => Fdb.report_of_holds _ hs) _
  rw [hwatches]
  split
  · rfl
  · obtain ⟨_, hlog, -⟩ := measure_of_defined
      (defined_logTurn ((List.range COMMITS).map o.log)) "versionstamp log append" (s := watched)
      (by rw [hlen', hlen, List.length_map, List.length_range]) (fun s hs => Fdb.report_of_holds _ hs) _
    rw [hlog]

theorem timed_main_iff (o : Outcomes) :
    (∀ call ∈ main o, call.Timed) ↔ (o.database = 0 →
      ∀ watch ∈ ((List.range 100).map o.watches).takeWhile WatchOutcome.published,
        watch.wc = 0 ∧ watch.w = 0) := by
  by_cases hdatabase : o.database = 0
  · rw [main_of_database hdatabase, List.forall_mem_cons, List.forall_mem_cons, timed_watches_iff]
    constructor
    · exact fun h _ => h.2.1
    · intro h
      refine ⟨(timed_iff _).mpr fun i _ x hx => commitTurn_store hx, h hdatabase, ?_⟩
      split
      · nofun
      · rintro call hcall
        obtain rfl := List.mem_singleton.mp hcall
        exact (timed_iff _).mpr fun i _ x hx => logTurn_store hx
  · rw [main, if_pos hdatabase]
    exact ⟨fun _ h => absurd h hdatabase, fun _ => nofun⟩

end Fdbpub

/-! ## `pointget.c` -/

namespace Pointget

open SampleBuffer Fdb

def N : Nat := 200000
def B : Nat := 1000
def R : Nat := 2000

structure GetOutcome where
  create : fdb_error_t
  get : fdb_error_t
  t0 : UInt64
  t1 : UInt64

def getTurn (o : GetOutcome) : Turn Sample :=
  if o.create ≠ 0 then .undefined else .store ⟨o.t1 - o.t0, [o.get]⟩

/-- Reads reusing one transaction; its `create` is that of the transaction. -/
structure SharedOutcome where
  get : fdb_error_t
  t0 : UInt64
  t1 : UInt64

def sharedTurn (o : SharedOutcome) : Turn Sample := .store ⟨o.t1 - o.t0, [o.get]⟩

structure Outcomes where
  database : fdb_error_t
  /-- The transaction of each batch of rows; its commit is not looked at. -/
  load : Nat → fdb_error_t
  gets : Nat → GetOutcome
  shared : fdb_error_t
  sharedGets : Nat → SharedOutcome

/-- The calls of `rep`.  A transaction that could not be created is used all the same. -/
def main (o : Outcomes) : List Call :=
  if o.database ≠ 0 then []
  else if ∃ batch < N / B, o.load batch ≠ 0 then []
  else
    measure getTurn ((List.range R).map o.gets) (Fdb.rep Sample.value)
      "point GET (new txn each)" (malloc R) fun s =>
    if o.shared ≠ 0 then []
    else
      measure sharedTurn ((List.range R).map o.sharedGets) (Fdb.rep Sample.value)
        "point GET (shared txn)" s fun _ => []

theorem getTurn_of_created {o : GetOutcome} (h : o.create = 0) :
    getTurn o = .store ⟨o.t1 - o.t0, [o.get]⟩ := by
  rw [getTurn, if_neg (not_not_intro h)]

theorem getTurn_goesOn (o : GetOutcome) : (getTurn o).goesOn = true := by
  rw [getTurn]
  split <;> rfl

theorem reached_getTurn (inputs : List GetOutcome) : reached getTurn inputs = inputs :=
  List.takeWhile_eq_self_iff.mpr fun o _ => getTurn_goesOn o

theorem reached_sharedTurn (inputs : List SharedOutcome) : reached sharedTurn inputs = inputs :=
  List.takeWhile_eq_self_iff.mpr fun _ _ => rfl

theorem defined_getTurn_iff (inputs : List GetOutcome) :
    Defined getTurn inputs ↔ ∀ o ∈ inputs, o.create = 0 := by
  rw [Defined, reached_getTurn]
  refine forall₂_congr fun o _ => ⟨fun h => ?_, fun h => ?_⟩
  · by_contra hcreate
    exact h (if_pos hcreate)
  · simp [getTurn_of_created h]

theorem defined_sharedTurn (inputs : List SharedOutcome) : Defined sharedTurn inputs :=
  fun _ _ => nofun

theorem timed_gets_iff (name : String) {inputs : List GetOutcome} (h : ∀ o ∈ inputs, o.create = 0) :
    Call.Timed ⟨name, (samples getTurn inputs).map some⟩ ↔ ∀ o ∈ inputs, o.get = 0 := by
  have hstore : ∀ o ∈ reached getTurn inputs, getTurn o = .store ⟨o.t1 - o.t0, [o.get]⟩ := by
    intro o ho
    rw [reached_getTurn] at ho
    exact getTurn_of_created (h o ho)
  rw [timed_iff_of_store name hstore, reached_getTurn]
  simp

theorem timed_sharedGets_iff (name : String) (inputs : List SharedOutcome) :
    Call.Timed ⟨name, (samples sharedTurn inputs).map some⟩ ↔ ∀ o ∈ inputs, o.get = 0 := by
  have hstore : ∀ o ∈ reached sharedTurn inputs, sharedTurn o = .store ⟨o.t1 - o.t0, [o.get]⟩ :=
    fun _ _ => rfl
  rw [timed_iff_of_store name hstore, reached_sharedTurn]
  simp

def Outcomes.Created (o : Outcomes) : Prop :=
  o.database = 0 ∧ (∀ batch < N / B, o.load batch = 0) ∧ ∀ i < R, (o.gets i).create = 0

theorem main_of_created {o : Outcomes} (h : o.Created) :
    main o =
      ⟨"point GET (new txn each)", (samples getTurn ((List.range R).map o.gets)).map some⟩ ::
      if o.shared ≠ 0 then []
      else [⟨"point GET (shared txn)", (samples sharedTurn ((List.range R).map o.sharedGets)).map some⟩] := by
  obtain ⟨hdatabase, hload, hcreate⟩ := h
  have hgets : ∀ get ∈ (List.range R).map o.gets, get.create = 0 := by simpa using hcreate
  have hall : (samples getTurn ((List.range R).map o.gets)).length = R := by
    rw [length_samples_of_store fun get hget => ⟨_, getTurn_of_created (hgets get hget)⟩,
      List.length_map, List.length_range]
  have hallShared : (samples sharedTurn ((List.range R).map o.sharedGets)).length = R := by
    have hstore : ∀ get ∈ (List.range R).map o.sharedGets, ∃ x, sharedTurn get = .store x :=
      fun _ _ => ⟨_, rfl⟩
    rw [length_samples_of_store hstore, List.length_map, List.length_range]
  rw [main, if_neg (not_not_intro hdatabase), if_neg (by simpa using hload)]
  obtain ⟨read, hread, hlen⟩ := measure_of_defined ((defined_getTurn_iff _).mpr hgets)
    "point GET (new txn each)" (s := malloc R) (by rw [List.length_map, List.length_range, length_malloc])
    (fun s hs => Fdb.rep_of_holds _ hs (by rw [hall]; decide)) _
  rw [hread]
  rw [length_malloc] at hlen
  split
  · rfl
  · obtain ⟨_, hshared, -⟩ := measure_of_defined
      (defined_sharedTurn ((List.range R).map o.sharedGets)) "point GET (shared txn)" (s := read)
      (by rw [hlen, List.length_map, List.length_range])
      (fun s hs => Fdb.rep_of_holds _ hs (by rw [hallShared]; decide)) _
    rw [hshared]

theorem main_of_not_created {o : Outcomes} (h : ¬ o.Created) : main o = [] := by
  rw [main]
  split
  · rfl
  · next hdatabase =>
    split
    · rfl
    · next hload =>
      refine measure_of_not_defined (fun hdefined => h ⟨not_not.mp hdatabase, ?_, ?_⟩) _ _ _
      · simpa using hload
      · simpa using (defined_getTurn_iff _).mp hdefined

/-- The value read is not looked at, nor is the error of the read. -/
theorem timed_main_iff (o : Outcomes) :
    (∀ call ∈ main o, call.Timed) ↔ (o.Created →
      (∀ i < R, (o.gets i).get = 0) ∧ (o.shared = 0 → ∀ i < R, (o.sharedGets i).get = 0)) := by
  by_cases hcreated : o.Created
  · have hgets : ∀ get ∈ (List.range R).map o.gets, get.create = 0 := by simpa using hcreated.2.2
    rw [main_of_created hcreated, List.forall_mem_cons, timed_gets_iff _ hgets]
    by_cases hshared : o.shared = 0
    · rw [if_neg (not_not_intro hshared), List.forall_mem_singleton, timed_sharedGets_iff]
      simp [hcreated, hshared]
    · rw [if_pos hshared]
      simp [hcreated, hshared]
  · rw [main_of_not_created hcreated]
    exact ⟨fun _ h => absurd h hcreated, fun _ => nofun⟩

end Pointget

namespace Fdb

/-- Only successful operations are timed iff no watch that is published to, and no read,
fails: these are the futures whose errors the two programs do not look at. -/
theorem samples_timed_iff (publish : Fdbpub.Outcomes) (read : Pointget.Outcomes) :
    ((∀ call ∈ Fdbpub.main publish, call.Timed) ∧ ∀ call ∈ Pointget.main read, call.Timed) ↔
      (publish.database = 0 →
        ∀ watch ∈ ((List.range 100).map publish.watches).takeWhile Fdbpub.WatchOutcome.published,
          watch.wc = 0 ∧ watch.w = 0) ∧
      (read.Created → (∀ i < Pointget.R, (read.gets i).get = 0) ∧
        (read.shared = 0 → ∀ i < Pointget.R, (read.sharedGets i).get = 0)) :=
  and_congr (Fdbpub.timed_main_iff publish) (Pointget.timed_main_iff read)

def noFailure : Fdbpub.Outcomes :=
  { database := 0, commits := fun _ => ⟨0, 0, 0, 10⟩, watches := fun _ => ⟨0, 0, ⟨0, 0, 0, 10⟩, 0, 0, 10⟩,
    bt := 0, log := fun _ => ⟨0, 0, 0, 10⟩ }

/-- Every read of the first section fails with `transaction_too_old`. -/
def oldReads : Pointget.Outcomes :=
  { database := 0, load := fun _ => 0, gets := fun _ => ⟨0, 1007, 100, 150⟩, shared := 0,
    sharedGets := fun _ => ⟨0, 200, 900⟩ }

theorem oldReads_created : oldReads.Created :=
  ⟨rfl, fun _ _ => rfl, fun _ _ => rfl⟩

theorem failed_reads_are_timed :
    ¬ ∀ (publish : Fdbpub.Outcomes) (read : Pointget.Outcomes),
      (∀ call ∈ Fdbpub.main publish, call.Timed) ∧ ∀ call ∈ Pointget.main read, call.Timed := by
  intro h
  have hreads := (Pointget.timed_main_iff oldReads).mp (h noFailure oldReads).2 oldReads_created
  exact absurd (hreads.1 0 (by decide)) (by decide)

end Fdb
