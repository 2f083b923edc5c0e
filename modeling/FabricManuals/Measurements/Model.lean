import FabricManuals.Lib.FileScript
import FabricManuals.Lib.KeyedTable

/-! # The measurements, `data/measurements/build.py`

The script as a function of the rows written in it.  `none` is NULL.  What a COPY does on
disk is a parameter; what the script prints is left out, but for the message it exits
with. -/
set_option autoImplicit false

namespace Measurements

open TextFile PosixPath FileTree FileScript KeyedTable

structure Run where
  run_id : Option Str
  host_class : Option Str
  region : Option Str
  machine_type : Option Str
  vcpus : Option Int
  memory_kb : Option Int
  kernel : Option Str
  note : Option Str

abbrev DOUBLE := UInt64

structure RunSoftware where
  run_id : Option Str
  component : Option Str
  version : Option Str

structure Latency where
  run_id : Option Str
  subject : Option Str
  operation : Option Str
  median_ns : Option Int
  p99_ns : Option Int
  min_ns : Option Int
  samples : Option Int

structure Throughput where
  run_id : Option Str
  concurrency : Option Int
  ops : Option Int
  aborts : Option Int
  seconds : Option DOUBLE

structure Size where
  run_id : Option Str
  subject : Option Str
  metric : Option Str
  bytes : Option Int

structure Capability where
  run_id : Option Str
  probe : Option Str
  result : Option Str
  detail : Option Str

structure Data where
  runs : List Run
  software : List RunSoftware
  latency : List Latency
  throughput : List Throughput
  size : List Size
  capability : List Capability

def INTEGER (v : Option Int) : Bool := v.all fun x => -2147483648 ≤ x ∧ x ≤ 2147483647

def BIGINT (v : Option Int) : Bool := v.all fun x => -9223372036854775808 ≤ x ∧ x ≤ 9223372036854775807

/-- A table whose rows belong to a run, which is part of their key. -/
structure Child (ρ κ : Type) extends Schema ρ κ where
  name : Str
  run_id : ρ → Option Str
  run_id_of_key : ∀ r, key r ≠ none → run_id r ≠ none

def columns {α β : Type} (a : Option α) (b : Option β) : Option (α × β) :=
  match a, b with
  | some a, some b => some (a, b)
  | _, _ => none

theorem fst_of_columns {α β : Type} {a : Option α} {b : Option β} (h : columns a b ≠ none) : a ≠ none := by
  rintro rfl
  exact h rfl

def run : Schema Run Str where
  key := Run.run_id
  fits r := INTEGER r.vcpus && BIGINT r.memory_kb

def run_software : Child RunSoftware (Str × Str) where
  name := "run_software".toList
  key r := columns r.run_id r.component
  fits _ := true
  run_id := RunSoftware.run_id
  run_id_of_key _ := fst_of_columns

def latency : Child Latency (Str × Str × Str) where
  name := "latency".toList
  key r := columns r.run_id (columns r.subject r.operation)
  fits r := BIGINT r.median_ns && BIGINT r.p99_ns && BIGINT r.min_ns && INTEGER r.samples
  run_id := Latency.run_id
  run_id_of_key _ := fst_of_columns

def throughput : Child Throughput (Str × Int) where
  name := "throughput".toList
  key r := columns r.run_id r.concurrency
  fits r := INTEGER r.concurrency && BIGINT r.ops && BIGINT r.aborts
  run_id := Throughput.run_id
  run_id_of_key _ := fst_of_columns

def size : Child Size (Str × Str × Str) where
  name := "size".toList
  key r := columns r.run_id (columns r.subject r.metric)
  fits r := BIGINT r.bytes
  run_id := Size.run_id
  run_id_of_key _ := fst_of_columns

def capability : Child Capability (Str × Str) where
  name := "capability".toList
  key r := columns r.run_id r.probe
  fits _ := true
  run_id := Capability.run_id
  run_id_of_key _ := fst_of_columns

structure Database where
  run : Table Measurements.run
  run_software : Table Measurements.run_software.toSchema
  latency : Table Measurements.latency.toSchema
  throughput : Table Measurements.throughput.toSchema
  size : Table Measurements.size.toSchema
  capability : Table Measurements.capability.toSchema

/-- An exception of the database, or `sys.exit`. -/
inductive Stop
  | refused (e : Refusal)
  | exit (message : Str)
deriving DecidableEq

def insertInto {ρ κ : Type} [DecidableEq κ] (S : Schema ρ κ) (rows : List ρ) : Except Stop (Table S) :=
  match executemany S rows with
  | .ok T => .ok T
  | .error e => .error (.refused e)

def load (data : Data) : Except Stop Database := do
  let run ← insertInto run data.runs
  let run_software ← insertInto run_software.toSchema data.software
  let latency ← insertInto latency.toSchema data.latency
  let throughput ← insertInto throughput.toSchema data.throughput
  let size ← insertInto size.toSchema data.size
  let capability ← insertInto capability.toSchema data.capability
  pure ⟨run, run_software, latency, throughput, size, capability⟩

def orphan_run_id {ρ κ : Type} (C : Child ρ κ) (T : Table C.toSchema) (runs : Table run) : Nat :=
  orphans C.run_id T.rows (runs.rows.map Run.run_id)

def verifyTable {ρ κ : Type} (C : Child ρ κ) (T : Table C.toSchema) (runs : Table run) :
    Except Stop Unit :=
  if orphan_run_id C T runs ≠ 0 then
    .error (.exit ("referential integrity failed in ".toList ++ C.name))
  else .ok ()

def verify (db : Database) : Except Stop Unit := do
  verifyTable run_software db.run_software db.run
  verifyTable latency db.latency db.run
  verifyTable throughput db.throughput db.run
  verifyTable size db.size db.run
  verifyTable capability db.capability db.run

inductive Contents
  | run (rows : List Run)
  | run_software (rows : List RunSoftware)
  | latency (rows : List Latency)
  | throughput (rows : List Throughput)
  | size (rows : List Size)
  | capability (rows : List Capability)

def Data.tables (data : Data) : List (Str × Contents) :=
  [("run".toList, .run data.runs), (Measurements.run_software.name, .run_software data.software),
    (Measurements.latency.name, .latency data.latency),
    (Measurements.throughput.name, .throughput data.throughput),
    (Measurements.size.name, .size data.size), (Measurements.capability.name, .capability data.capability)]

def Database.data (db : Database) : Data :=
  ⟨db.run.rows, db.run_software.rows, db.latency.rows, db.throughput.rows, db.size.rows,
    db.capability.rows⟩

def located (cwd : Path) (s : Str) : Path := walk (if isabs s then [] else cwd) (split s)

def parquetPath (OUT t : Str) : Str := OUT ++ '/' :: (t ++ ".parquet".toList)

/-- `COPY {t} TO '…' (FORMAT PARQUET, COMPRESSION ZSTD)`, with the path as it is. -/
def copyText (t file : Str) : Str :=
  "COPY ".toList ++ t ++ " TO '".toList ++ file ++ "' (FORMAT PARQUET, COMPRESSION ZSTD)".toList

/-- DuckDB: what it does on disk for a text of SQL, given the tables, and what it reads
in a Parquet file. -/
structure DuckDB where
  execute : Data → Str → Script Unit
  read_parquet : List UInt8 → Option Contents

/-- `os.makedirs(OUT, exist_ok=True)` -/
def makedirs (cwd : Path) (OUT : Str) : Script Unit :=
  if OUT = [] then .crash (.file .notFound) else File.mkdir_p (located cwd OUT)

/-- `os.path.getsize`, for the line that is printed. -/
def getsize (p : Path) : Script Unit := do
  let found ← File.exists? p
  if found then pure () else .crash (.file .notFound)

section
variable (duckdb : DuckDB) (cwd : Path)

def copyTables (data : Data) (OUT : Str) : List Str → Script Unit
  | [] => pure ()
  | t :: rest => do
    duckdb.execute data (copyText t (parquetPath OUT t))
    getsize (located cwd (parquetPath OUT t))
    copyTables data OUT rest

/-- Up to `os.makedirs` the script touches no file. -/
def build (data : Data) (OUT : Str) : Script (Except Stop Unit) :=
  match load data with
  | .error e => pure (.error e)
  | .ok db =>
    match verify db with
    | .error e => pure (.error e)
    | .ok () => do
      makedirs cwd OUT
      copyTables duckdb cwd db.data OUT (db.data.tables.map Prod.fst)
      pure (.ok ())

end

end Measurements
