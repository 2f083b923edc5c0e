import FabricManuals.Probe.FdbHandles

/-! # The handles of `pointget.c`

No transaction of this program is checked before it is used. -/
set_option autoImplicit false

namespace Pointget.Traced

open SampleBuffer Handles Fdb

def setRows (tr : Pointer) : Nat → Prog Unit
  | 0 => pure ()
  | rows + 1 => do
    fdb_transaction_set tr
    setRows tr rows

/-- load 200000 identity rows, batched -/
def loadTurn (db : Pointer) (create : fdb_error_t) : Prog (Next Unit) := do
  let tr ← fdb_database_create_transaction db create
  setRows tr B
  let f ← fdb_transaction_commit tr
  fdb_future_block_until_ready f
  fdb_future_destroy f
  fdb_transaction_destroy tr
  pure (.go ())

def getTurn (db : Pointer) (o : GetOutcome) : Prog (Turn Sample) := do
  let tr ← fdb_database_create_transaction db o.create
  let f ← fdb_transaction_get tr
  fdb_future_block_until_ready f
  fdb_future_get_value f
  fdb_future_destroy f
  fdb_transaction_destroy tr
  pure (.store ⟨o.t1 - o.t0, [o.get]⟩)

def sharedTurn (tr : Pointer) (o : SharedOutcome) : Prog (Turn Sample) := do
  let f ← fdb_transaction_get tr
  fdb_future_block_until_ready f
  fdb_future_get_value f
  fdb_future_destroy f
  pure (.store ⟨o.t1 - o.t0, [o.get]⟩)

def sections (db : Pointer) (o : Outcomes) : Prog (List Call) := do
  turns (fun batch _ => loadTurn db (o.load batch)) 0 (N / B) ()
  let gets ← measureWith (getTurn db) ((List.range R).map o.gets) (Fdb.rep Sample.value)
    "point GET (new txn each)" (malloc R)
  let tr ← fdb_database_create_transaction db o.shared
  let shared ← measureWith (sharedTurn tr) ((List.range R).map o.sharedGets) (Fdb.rep Sample.value)
    "point GET (shared txn)" gets.2
  fdb_transaction_destroy tr
  pure [gets.1, shared.1]

def main (o : Outcomes) : Prog (List Call) := do
  let db ← create (o.database = 0)
  if o.database ≠ 0 then
    pure []
  else
    sections db o

section
variable {live : Finset Nat} {db tr : Nat}

theorem ends_setRows {β : Type} {k : Unit → Prog β} {post : β → Finset Nat → Prop} (htr : tr ∈ live)
    (rows : Nat) (h : Ends live (k ()) post) : Ends live (setRows (some tr) rows >>= k) post := by
  induction rows with
  | zero => exact h
  | succ rows ih =>
      rw [setRows, bind_assoc]
      exact ends_use htr ih

theorem undefined_setRows (rows : Nat) : Undefined live (setRows none (rows + 1)) :=
  undefined_use.bind _

theorem ends_loadTurn (hdb : db ∈ live) {e : fdb_error_t} (he : e = 0) :
    Ends live (loadTurn (some db) e) fun r live' => r = .go () ∧ live' = live := by
  refine ends_create_transaction hdb he fun tr htr => ?_
  refine ends_setRows (Finset.mem_insert_self _ _) B (ends_futureOf (Finset.mem_insert_self _ _) fun f hf => ?_)
  refine ends_use (Finset.mem_insert_self _ _) (ends_destroy hf (ends_destroy htr ?_))
  exact ends_pure ⟨rfl, rfl⟩

theorem undefined_loadTurn (hdb : db ∈ live) {e : fdb_error_t} (he : e ≠ 0) :
    Undefined live (loadTurn (some db) e) :=
  undefined_create_transaction_failed hdb he ((undefined_setRows _).bind _)

theorem ends_getTurn (hdb : db ∈ live) {o : GetOutcome} (ho : o.create = 0) :
    Ends live (getTurn (some db) o) fun t live' => t = Pointget.getTurn o ∧ live' = live := by
  rw [getTurn_of_created ho]
  refine ends_create_transaction hdb ho fun tr htr => ?_
  refine ends_futureOf (Finset.mem_insert_self _ _) fun f hf => ?_
  refine ends_use (Finset.mem_insert_self _ _) (ends_use (Finset.mem_insert_self _ _) ?_)
  exact ends_destroy hf (ends_destroy htr (ends_pure ⟨rfl, rfl⟩))

theorem undefined_getTurn (hdb : db ∈ live) {o : GetOutcome} (ho : o.create ≠ 0) :
    Undefined live (getTurn (some db) o) :=
  undefined_create_transaction_failed hdb ho (undefined_futureOf.bind _)

theorem ends_sharedTurn (htr : tr ∈ live) (o : SharedOutcome) :
    Ends live (sharedTurn (some tr) o) fun t live' => t = Pointget.sharedTurn o ∧ live' = live := by
  refine ends_futureOf htr fun f hf => ?_
  refine ends_use (Finset.mem_insert_self _ _) (ends_use (Finset.mem_insert_self _ _) ?_)
  exact ends_destroy hf (ends_pure ⟨rfl, rfl⟩)

theorem undefined_sharedTurn (o : SharedOutcome) : Undefined live (sharedTurn none o) :=
  undefined_futureOf.bind _

theorem ends_load (hdb : db ∈ live) {o : Outcomes} (hload : ∀ batch < N / B, o.load batch = 0) :
    Ends live (turns (fun batch _ => loadTurn (some db) (o.load batch)) 0 (N / B) ()) fun _ live' =>
      live' = live := by
  let same : Unit → Finset Nat → Prop := fun _ live' => live' = live
  refine (ends_turns (fun _ => same) same ?_ (N / B) 0 () live (Nat.zero_add _) rfl).mono ?_
  · intro batch hbatch _ live' hsame
    have hdb' : db ∈ live' := hsame ▸ hdb
    refine (ends_loadTurn hdb' (hload batch hbatch)).mono ?_
    rintro _ _ ⟨rfl, rfl⟩
    exact hsame
  · rintro ⟨⟩ live' (h | h) <;> exact h

theorem undefined_load (hdb : db ∈ live) {o : Outcomes} {batch : Nat} (hbatch : batch < N / B)
    (hload : o.load batch ≠ 0) :
    Undefined live (turns (fun batch _ => loadTurn (some db) (o.load batch)) 0 (N / B) ()) := by
  refine undefined_turns (fun i => ?_) (undefined_loadTurn hdb hload) (N / B) 0 (Nat.zero_le _) (by omega)
  by_cases hi : o.load i = 0
  · exact Or.inr (ends_loadTurn hdb hi)
  · exact Or.inl (undefined_loadTurn hdb hi)

theorem ends_gets (hdb : db ∈ live) {o : Outcomes} (hgets : ∀ i < R, (o.gets i).create = 0) :
    Ends live (measureWith (getTurn (some db)) ((List.range R).map o.gets) (Fdb.rep Sample.value)
      "point GET (new txn each)" (malloc R)) fun result live' =>
      result.1 = ⟨"point GET (new txn each)", (samples Pointget.getTurn ((List.range R).map o.gets)).map some⟩ ∧
        result.2.length = R ∧ live' = live := by
  have hcreated : ∀ get ∈ (List.range R).map o.gets, get.create = 0 := by simpa using hgets
  have hall : (samples Pointget.getTurn ((List.range R).map o.gets)).length = R := by
    rw [length_samples_of_store fun get hget => ⟨_, getTurn_of_created (hcreated get hget)⟩,
      List.length_map, List.length_range]
  have h := ends_measureWith (fun get hget => ends_getTurn hdb (hcreated get hget))
    ((defined_getTurn_iff _).mpr hcreated) (Fdb.rep Sample.value) "point GET (new txn each)"
    (s := malloc R) (by rw [List.length_map, List.length_range, length_malloc])
    (fun s hs => Fdb.rep_of_holds _ hs (by rw [hall]; decide))
  rwa [length_malloc] at h

theorem undefined_gets (hdb : db ∈ live) {o : Outcomes} {i : Nat} (hi : i < R)
    (hget : (o.gets i).create ≠ 0) :
    Undefined live (measureWith (getTurn (some db)) ((List.range R).map o.gets) (Fdb.rep Sample.value)
      "point GET (new txn each)" (malloc R)) := by
  refine (undefined_fillWith (fun get _ => ?_) ?_ _ _).bind _
  · by_cases hcreate : get.create = 0
    · exact Or.inr ⟨_, getTurn_of_created hcreate ▸ ends_getTurn hdb hcreate⟩
    · exact Or.inl (undefined_getTurn hdb hcreate)
  · exact ⟨_, List.mem_map_of_mem (List.mem_range.mpr hi), undefined_getTurn hdb hget⟩

theorem ends_sharedGets (htr : tr ∈ live) (o : Outcomes) {s : Cells Sample} (hs : s.length = R) :
    Ends live (measureWith (sharedTurn (some tr)) ((List.range R).map o.sharedGets)
      (Fdb.rep Sample.value) "point GET (shared txn)" s) fun result live' =>
      result.1 = ⟨"point GET (shared txn)", (samples Pointget.sharedTurn ((List.range R).map o.sharedGets)).map some⟩ ∧
        result.2.length = R ∧ live' = live := by
  have hall : (samples Pointget.sharedTurn ((List.range R).map o.sharedGets)).length = R := by
    have hstore : ∀ get ∈ (List.range R).map o.sharedGets, ∃ x, Pointget.sharedTurn get = .store x :=
      fun _ _ => ⟨_, rfl⟩
    rw [length_samples_of_store hstore, List.length_map, List.length_range]
  have h := ends_measureWith (fun get _ => ends_sharedTurn htr get)
    (defined_sharedTurn ((List.range R).map o.sharedGets))
    (Fdb.rep Sample.value) "point GET (shared txn)" (s := s)
    (by rw [hs, List.length_map, List.length_range])
    (fun s hs => Fdb.rep_of_holds _ hs (by rw [hall]; decide))
  rwa [hs] at h

theorem undefined_sharedGets (o : Outcomes) (s : Cells Sample) :
    Undefined live (measureWith (sharedTurn none) ((List.range R).map o.sharedGets)
      (Fdb.rep Sample.value) "point GET (shared txn)" s) := by
  refine (undefined_fillWith (fun get _ => Or.inl (undefined_sharedTurn get)) ?_ _ _).bind _
  exact ⟨_, List.mem_map_of_mem (List.mem_range.mpr (by decide : 0 < R)), undefined_sharedTurn _⟩

def AllCreated (o : Outcomes) : Prop :=
  (∀ batch < N / B, o.load batch = 0) ∧ (∀ i < R, (o.gets i).create = 0) ∧ o.shared = 0

theorem ends_sections {o : Outcomes} (hdb : db ∈ live) (hdatabase : o.database = 0)
    (h : AllCreated o) : Ends live (sections (some db) o) fun calls live' =>
      calls = Pointget.main o ∧ live' = live := by
  obtain ⟨hload, hgets, hshared⟩ := h
  rw [main_of_created ⟨hdatabase, hload, hgets⟩, if_neg (not_not_intro hshared)]
  refine (ends_load hdb hload).bind ?_
  rintro _ _ rfl
  refine (ends_gets hdb hgets).bind ?_
  rintro ⟨gets, s⟩ _ ⟨rfl, hs, rfl⟩
  refine ends_create_transaction hdb hshared fun tr htr => ?_
  refine (ends_sharedGets (Finset.mem_insert_self _ _) o hs).bind ?_
  rintro ⟨shared, _⟩ _ ⟨rfl, -, rfl⟩
  exact ends_destroy htr (ends_pure ⟨rfl, rfl⟩)

theorem undefined_sections {o : Outcomes} (hdb : db ∈ live) (h : ¬ AllCreated o) :
    Undefined live (sections (some db) o) := by
  by_cases hload : ∀ batch < N / B, o.load batch = 0
  · refine (ends_load hdb hload).bind_undefined ?_
    rintro _ live rfl
    by_cases hgets : ∀ i < R, (o.gets i).create = 0
    · refine (ends_gets hdb hgets).bind_undefined ?_
      rintro ⟨gets, s⟩ live ⟨rfl, hs, rfl⟩
      refine undefined_create_transaction_failed hdb (fun hshared => h ⟨hload, hgets, hshared⟩) ?_
      exact (undefined_sharedGets o s).bind _
    · obtain ⟨i, hi, hget⟩ := by simpa using hgets
      exact (undefined_gets hdb hi hget).bind _
  · obtain ⟨batch, hbatch, hfails⟩ := by simpa using hload
    exact (undefined_load hdb hbatch hfails).bind _

end

theorem main_of_no_database {o : Outcomes} (h : o.database ≠ 0) :
    main o Heap.empty = some ([], Heap.empty) := by
  rw [main, decide_eq_false h, bind_run]
  show (if o.database ≠ 0 then _ else _ : Prog (List Call)) Heap.empty = _
  rw [if_pos h]
  rfl

theorem main_of_database {o : Outcomes} (h : o.database = 0) :
    main o Heap.empty = sections (some 0) o Heap.empty.allocate := by
  rw [main, decide_eq_true h, bind_run]
  show (if o.database ≠ 0 then _ else _ : Prog (List Call)) Heap.empty.allocate = _
  rw [if_neg (not_not_intro h)]
  rfl

/-- The program uses only handles it has iff every transaction could be created; it has then
given back all of them and every future, each once. -/
theorem gets_given_back (o : Outcomes) :
    ((main o Heap.empty).isSome = true ↔ (o.database = 0 → AllCreated o)) ∧
      ∀ calls H, main o Heap.empty = some (calls, H) →
        H.live = (if o.database = 0 then {0} else ∅) ∧ calls = Pointget.main o := by
  by_cases h : o.database = 0
  · rw [main_of_database h]
    by_cases hall : AllCreated o
    · obtain ⟨calls, H, hrun, hcalls, hlive⟩ :=
        ends_sections (Finset.mem_singleton_self 0) h hall Heap.empty.allocate rfl
      rw [hrun]
      refine ⟨by simp [hall], ?_⟩
      rintro _ _ ⟨⟩
      exact ⟨by rw [if_pos h, hlive], hcalls⟩
    · rw [undefined_sections (Finset.mem_singleton_self 0) hall Heap.empty.allocate rfl]
      exact ⟨by simp [h, hall], fun _ _ => nofun⟩
  · rw [main_of_no_database h]
    refine ⟨by simp [h], ?_⟩
    rintro _ _ ⟨⟩
    exact ⟨by rw [if_neg h]; rfl, by rw [Pointget.main, if_pos h]⟩

end Pointget.Traced
