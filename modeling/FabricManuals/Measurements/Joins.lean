import FabricManuals.Measurements.Build

/-! # Reading the files back

The tables are split by fact type: what is known of a run stands in `run` alone.  A
query joins it to the rows of the run, and neither loses nor repeats one of them. -/
set_option autoImplicit false

namespace Measurements

open TextFile PosixPath FileTree FileScript KeyedTable

section
variable (duckdb : DuckDB)

def readParquet (t : Tree) (p : Path) : Option Contents :=
  match t.read p with
  | .ok bytes => duckdb.read_parquet bytes
  | .error _ => none

def runsOf : Contents → Option (List Run)
  | .run rows => some rows
  | _ => none

/-- `FROM read_parquet('….parquet') JOIN read_parquet('run.parquet') USING (run_id)`; `part` are
the rows of the table. -/
def joinRun {ρ κ : Type} (C : Child ρ κ) (part : Contents → Option (List ρ)) (t : Tree) (dir : Path) :
    Option (List (ρ × Run)) := do
  let rows ← (readParquet duckdb t (dir ++ [C.name ++ ".parquet".toList])).bind part
  let runs ← (readParquet duckdb t (dir ++ ["run.parquet".toList])).bind runsOf
  pure (join C.run_id Run.run_id rows runs)

/-- Each row comes once and in its place, with the facts of its run. -/
def EachWithItsRun {ρ κ : Type} (C : Child ρ κ) (rows : List ρ) (runs : List Run)
    (joined : Option (List (ρ × Run))) : Prop :=
  ∃ l, joined = some l ∧ l.map Prod.fst = rows ∧ ∀ x ∈ l, x.2 ∈ runs ∧ x.2.run_id = C.run_id x.1

variable {duckdb} {cwd dir : Path} {data : Data} {OUT : Str} {t t' : Tree}

theorem eachWithItsRun {ρ κ : Type} {C : Child ρ κ} {part : Contents → Option (List ρ)} {rows : List ρ}
    {contents : Contents} (hruns : Admissible run data.runs) (hrefers : Refers C rows data.runs)
    (hpart : part contents = some rows)
    (htable : readParquet duckdb t (dir ++ [C.name ++ ".parquet".toList]) = some contents)
    (hrun : readParquet duckdb t (dir ++ ["run.parquet".toList]) = some (.run data.runs)) :
    EachWithItsRun C rows data.runs (joinRun duckdb C part t dir) := by
  refine ⟨join C.run_id Run.run_id rows data.runs, ?_, ?_, fun x hx => ?_⟩
  · rw [joinRun, htable, hrun, Option.bind_some, Option.bind_some, hpart]
    rfl
  · exact join_map_fst (S := run) ⟨data.runs, hruns.fits, hruns.keyed, hruns.nodup⟩ hrefers
  · obtain ⟨-, hmem, -, hkey⟩ := mem_join.mp hx
    exact ⟨hmem, hkey⟩

def software? : Contents → Option (List RunSoftware)
  | .run_software rows => some rows
  | _ => none

def latency? : Contents → Option (List Latency)
  | .latency rows => some rows
  | _ => none

def throughput? : Contents → Option (List Throughput)
  | .throughput rows => some rows
  | _ => none

def size? : Contents → Option (List Size)
  | .size rows => some rows
  | _ => none

def capability? : Contents → Option (List Capability)
  | .capability rows => some rows
  | _ => none

/-- After a completed run a query over a table and `run` finds every row of the table, once,
beside the facts of its run. -/
theorem joins_lossless (hcopies : duckdb.Copies cwd) (hlocal : Local OUT)
    (hexec : exec (build duckdb cwd data OUT) t = (t', .ok (.ok ()))) :
    EachWithItsRun run_software data.software data.runs
      (joinRun duckdb run_software software? t' (located cwd OUT)) ∧
    EachWithItsRun latency data.latency data.runs (joinRun duckdb latency latency? t' (located cwd OUT)) ∧
    EachWithItsRun throughput data.throughput data.runs
      (joinRun duckdb throughput throughput? t' (located cwd OUT)) ∧
    EachWithItsRun size data.size data.runs (joinRun duckdb size size? t' (located cwd OUT)) ∧
    EachWithItsRun capability data.capability data.runs
      (joinRun duckdb capability capability? t' (located cwd OUT)) := by
  have h : Consistent data := by
    by_contra hnot
    obtain ⟨e, hbuild⟩ := build_of_not_consistent duckdb cwd hnot OUT
    rw [hbuild] at hexec
    cases hexec
  have hread : ∀ e ∈ data.tables, readParquet duckdb t' (fileOf cwd OUT e.1) = some e.2 := by
    intro e he
    obtain ⟨bytes, hfile, hdecoded⟩ := exec_build hcopies hlocal h hexec e he
    rw [readParquet, hfile]
    exact hdecoded
  simp only [Data.tables, List.forall_mem_cons] at hread
  obtain ⟨hrun, hsoftware, hlatency, hthroughput, hsize, hcapability, -⟩ := hread
  refine ⟨?_, ?_, ?_, ?_, ?_⟩
  · exact eachWithItsRun h.runs h.software.2 rfl hsoftware hrun
  · exact eachWithItsRun h.runs h.latency.2 rfl hlatency hrun
  · exact eachWithItsRun h.runs h.throughput.2 rfl hthroughput hrun
  · exact eachWithItsRun h.runs h.size.2 rfl hsize hrun
  · exact eachWithItsRun h.runs h.capability.2 rfl hcapability hrun

end

theorem joins_lossless_ciContainer : ∃ t', exec (build (plainDuckDB []) [] ciContainer "parquet".toList) outTree =
      (t', .ok (.ok ())) ∧
    EachWithItsRun throughput ciContainer.throughput ciContainer.runs
      (joinRun (plainDuckDB []) throughput throughput? t' ["parquet".toList]) := by
  obtain ⟨-, -, h, -, -⟩ := joins_lossless (plainDuckDB_copies []) parquet_local ciContainer_completes
  exact ⟨_, ciContainer_completes, h⟩

end Measurements
