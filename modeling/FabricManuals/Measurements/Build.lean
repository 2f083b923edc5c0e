import FabricManuals.Lib.Attempts
import FabricManuals.Lib.Lines
import FabricManuals.Measurements.Model
import Mathlib.Data.Nat.Digits.Lemmas
import Mathlib.Logic.Equiv.List
import Mathlib.Tactic.DeriveEncodable

/-! # What the script writes, and when

The tables are checked before the first file is opened: rows the database refuses, or
rows of a run that is not there, leave the directory as it was.  What COPY is relied on for
is named in `DuckDB.Copies`. -/
set_option autoImplicit false

namespace Measurements

open TextFile PosixPath FileTree FileScript KeyedTable Attempts

/-! ## The checks -/

def Refers {ρ κ : Type} (C : Child ρ κ) (rows : List ρ) (runs : List Run) : Prop :=
  ∀ r ∈ rows, C.run_id r ∈ runs.map Run.run_id

instance decidableRefers {ρ κ : Type} (C : Child ρ κ) (rows : List ρ) (runs : List Run) :
    Decidable (Refers C rows runs) :=
  inferInstanceAs (Decidable (∀ r ∈ rows, C.run_id r ∈ runs.map Run.run_id))

structure Consistent (data : Data) : Prop where
  runs : Admissible run data.runs
  software : Admissible run_software.toSchema data.software ∧ Refers run_software data.software data.runs
  latency : Admissible Measurements.latency.toSchema data.latency ∧
    Refers Measurements.latency data.latency data.runs
  throughput : Admissible Measurements.throughput.toSchema data.throughput ∧
    Refers Measurements.throughput data.throughput data.runs
  size : Admissible Measurements.size.toSchema data.size ∧ Refers Measurements.size data.size data.runs
  capability : Admissible Measurements.capability.toSchema data.capability ∧
    Refers Measurements.capability data.capability data.runs

section
variable {ρ κ : Type} [DecidableEq κ] {S : Schema ρ κ} {C : Child ρ κ}

theorem insertInto_eq_ok_iff {rows : List ρ} {T : Table S} :
    insertInto S rows = .ok T ↔ rows ≠ [] ∧ T.rows = rows := by
  rw [← executemany_eq_ok_iff, insertInto]
  cases executemany S rows <;> simp

theorem admissible_of_insertInto {rows : List ρ} {T : Table S} (h : insertInto S rows = .ok T) :
    Admissible S rows := by
  obtain ⟨hne, rfl⟩ := insertInto_eq_ok_iff.mp h
  exact ⟨hne, T.fits, T.keyed, T.nodup⟩

theorem exists_insertInto {rows : List ρ} (h : Admissible S rows) :
    ∃ T, insertInto S rows = .ok T ∧ T.rows = rows :=
  ⟨⟨rows, h.fits, h.keyed, h.nodup⟩, insertInto_eq_ok_iff.mpr ⟨h.nonempty, rfl⟩, rfl⟩

end

/-- No `run_id` is NULL, so the count leaves no orphan out. -/
theorem verifyTable_eq_ok_iff {ρ κ : Type} {C : Child ρ κ} {T : Table C.toSchema} {runs : Table run} :
    verifyTable C T runs = .ok () ↔ Refers C T.rows runs.rows := by
  have hzero : orphan_run_id C T runs = 0 ↔ Refers C T.rows runs.rows := by
    refine orphans_eq_zero_iff (fun r hr => C.run_id_of_key r (T.keyed r hr)) fun hnull => ?_
    obtain ⟨r, hr, hkey⟩ := List.mem_map.mp hnull
    exact runs.keyed r hr hkey
  rw [← hzero, verifyTable]
  split
  · next h => simpa using h
  · next h => simpa using h

theorem load_eq_ok_iff {data : Data} {db : Database} :
    load data = .ok db ↔ insertInto run data.runs = .ok db.run ∧
      insertInto run_software.toSchema data.software = .ok db.run_software ∧
      insertInto latency.toSchema data.latency = .ok db.latency ∧
      insertInto throughput.toSchema data.throughput = .ok db.throughput ∧
      insertInto size.toSchema data.size = .ok db.size ∧
      insertInto capability.toSchema data.capability = .ok db.capability := by
  simp only [load, bind_eq_ok, pure, Except.pure, Except.ok.injEq]
  constructor
  · rintro ⟨_, h₁, _, h₂, _, h₃, _, h₄, _, h₅, _, h₆, rfl⟩
    exact ⟨h₁, h₂, h₃, h₄, h₅, h₆⟩
  · rintro ⟨h₁, h₂, h₃, h₄, h₅, h₆⟩
    exact ⟨_, h₁, _, h₂, _, h₃, _, h₄, _, h₅, _, h₆, rfl⟩

theorem verify_eq_ok_iff {db : Database} :
    verify db = .ok () ↔ Refers run_software db.run_software.rows db.run.rows ∧
      Refers latency db.latency.rows db.run.rows ∧ Refers throughput db.throughput.rows db.run.rows ∧
      Refers size db.size.rows db.run.rows ∧ Refers capability db.capability.rows db.run.rows := by
  have hand : ∀ {x : Except Stop Unit} {f : Unit → Except Stop Unit},
      (x >>= f) = .ok () ↔ x = .ok () ∧ f () = .ok () := by
    intro x f
    rw [bind_eq_ok]
    exact ⟨fun ⟨(), hx, hf⟩ => ⟨hx, hf⟩, fun ⟨hx, hf⟩ => ⟨(), hx, hf⟩⟩
  simp only [verify, hand, verifyTable_eq_ok_iff]

theorem data_of_load {data : Data} {db : Database} (h : load data = .ok db) : db.data = data := by
  obtain ⟨h₁, h₂, h₃, h₄, h₅, h₆⟩ := load_eq_ok_iff.mp h
  rw [Database.data, (insertInto_eq_ok_iff.mp h₁).2, (insertInto_eq_ok_iff.mp h₂).2,
    (insertInto_eq_ok_iff.mp h₃).2, (insertInto_eq_ok_iff.mp h₄).2, (insertInto_eq_ok_iff.mp h₅).2,
    (insertInto_eq_ok_iff.mp h₆).2]

theorem consistent_of_checked {data : Data} {db : Database} (h : load data = .ok db)
    (hverify : verify db = .ok ()) : Consistent data := by
  obtain ⟨h₁, h₂, h₃, h₄, h₅, h₆⟩ := load_eq_ok_iff.mp h
  obtain rfl := data_of_load h
  obtain ⟨v₂, v₃, v₄, v₅, v₆⟩ := verify_eq_ok_iff.mp hverify
  exact
    { runs := admissible_of_insertInto h₁
      software := ⟨admissible_of_insertInto h₂, v₂⟩
      latency := ⟨admissible_of_insertInto h₃, v₃⟩
      throughput := ⟨admissible_of_insertInto h₄, v₄⟩
      size := ⟨admissible_of_insertInto h₅, v₅⟩
      capability := ⟨admissible_of_insertInto h₆, v₆⟩ }

theorem checked_of_consistent {data : Data} (h : Consistent data) :
    ∃ db, load data = .ok db ∧ verify db = .ok () := by
  obtain ⟨run, hrun, hruns⟩ := exists_insertInto h.runs
  obtain ⟨software, hsoftware, hs⟩ := exists_insertInto h.software.1
  obtain ⟨latency, hlatency, hl⟩ := exists_insertInto h.latency.1
  obtain ⟨throughput, hthroughput, ht⟩ := exists_insertInto h.throughput.1
  obtain ⟨size, hsize, hz⟩ := exists_insertInto h.size.1
  obtain ⟨capability, hcapability, hc⟩ := exists_insertInto h.capability.1
  refine ⟨⟨run, software, latency, throughput, size, capability⟩, ?_, verify_eq_ok_iff.mpr ?_⟩
  · exact load_eq_ok_iff.mpr ⟨hrun, hsoftware, hlatency, hthroughput, hsize, hcapability⟩
  · simp only [hruns, hs, hl, ht, hz, hc]
    exact ⟨h.software.2, h.latency.2, h.throughput.2, h.size.2, h.capability.2⟩

/-! ## COPY -/

/-- A path that the SQL text holds as it is, and that names a file of the machine: no
apostrophe ends the literal, there is no scheme and no home directory, and no step up. -/
structure Local (file : Str) : Prop where
  quoted : '\'' ∉ file
  scheme : ':' ∉ file
  home : '~' ∉ file
  down : dotdot ∉ split file

instance (file : Str) : Decidable (Local file) :=
  decidable_of_iff ('\'' ∉ file ∧ ':' ∉ file ∧ '~' ∉ file ∧ ∀ part ∈ split file, part ≠ dotdot)
    ⟨fun h => ⟨h.1, h.2.1, h.2.2.1, fun hup => h.2.2.2 _ hup rfl⟩,
      fun h => ⟨h.1, h.2, h.3, fun _ hpart hup => h.4 (hup ▸ hpart)⟩⟩

/-- The file, or one beside it whose name is made of the file's, as a temporary's is. -/
def Beside (file q : Path) : Prop :=
  ∃ dir name n, file = dir ++ [name] ∧ q = dir ++ [n] ∧ name <:+: n

/-- COPY as it is documented: nothing but the file it names is touched, and when it is
through this holds the table. -/
structure DuckDB.Copies (duckdb : DuckDB) (cwd : Path) : Prop where
  scope : ∀ (data : Data) {t file : Str} {tree c : Tree}, t ∈ data.tables.map Prod.fst → Local file →
    c ∈ cuts (duckdb.execute data (copyText t file)) tree →
      ∀ q, c.find? q = tree.find? q ∨ Beside (located cwd file) q
  written : ∀ (data : Data) {t file : Str} {rows : Contents} {tree tree' : Tree}, (t, rows) ∈ data.tables →
    Local file → exec (duckdb.execute data (copyText t file)) tree = (tree', .ok ()) →
      ∃ bytes, tree'.find? (located cwd file) = some (.file bytes) ∧ duckdb.read_parquet bytes = some rows

def tableNames : List Str := Data.tables ⟨[], [], [], [], [], []⟩ |>.map Prod.fst

theorem map_fst_tables (data : Data) : data.tables.map Prod.fst = tableNames := rfl

theorem plain_tableNames : ∀ t ∈ tableNames, PosixPath.Plain (t ++ ".parquet".toList) := by decide

/-- No file of a table could be taken for a temporary of another's. -/
theorem apart_tableNames : tableNames.Pairwise fun t t' =>
    ¬ (t ++ ".parquet".toList) <:+: (t' ++ ".parquet".toList) ∧
      ¬ (t' ++ ".parquet".toList) <:+: (t ++ ".parquet".toList) := by decide +kernel

def fileOf (cwd : Path) (OUT t : Str) : Path := located cwd OUT ++ [t ++ ".parquet".toList]

section
variable {duckdb : DuckDB} {cwd : Path} {data : Data} {OUT t : Str}

theorem located_parquetPath (hne : OUT ≠ []) (ht : t ∈ tableNames) :
    located cwd (parquetPath OUT t) = fileOf cwd OUT t := by
  have habs : isabs (parquetPath OUT t) = isabs OUT := by
    obtain ⟨c, rest, rfl⟩ := List.exists_cons_of_ne_nil hne
    rfl
  have hname := plain_tableNames t ht
  have hsplit : split (t ++ ".parquet".toList) = [t ++ ".parquet".toList] := by
    have hone := split_joinSegs (List.cons_ne_nil _ []) (List.forall_mem_singleton.mpr hname.no_slash)
    simpa [joinSegs] using hone
  rw [located, habs, parquetPath, split_append_slash, walk_append, hsplit, fileOf, located]
  exact step_plain hname _

theorem local_parquetPath (h : Local OUT) (ht : t ∈ tableNames) : Local (parquetPath OUT t) := by
  have hclean : ∀ t ∈ tableNames, ∀ c ∈ ['\'', ':', '~'], c ∉ '/' :: (t ++ ".parquet".toList) := by decide
  have hchars : ∀ c ∈ ['\'', ':', '~'], c ∉ OUT → c ∉ parquetPath OUT t := by
    intro c hc hOUT hmem
    exact (List.mem_append.mp hmem).elim hOUT (hclean t ht c hc)
  refine ⟨hchars _ (by simp) h.quoted, hchars _ (by simp) h.scheme, hchars _ (by simp) h.home, ?_⟩
  intro hmem
  rw [parquetPath, split_append_slash] at hmem
  rcases List.mem_append.mp hmem with hmem | hmem
  · exact h.down hmem
  · have hnames : ∀ t ∈ tableNames, dotdot ∉ split (t ++ ".parquet".toList) := by decide
    exact hnames t ht hmem

theorem besides_fileOf {q : Path} (h : Beside (fileOf cwd OUT t) q) :
    ∃ n, q = located cwd OUT ++ [n] ∧ (t ++ ".parquet".toList) <:+: n := by
  obtain ⟨dir, name, n, hfile, rfl, hname⟩ := h
  obtain ⟨rfl, hlast⟩ := List.append_inj' (hfile : _ ++ [_] = _) rfl
  obtain rfl := List.singleton_inj.mp hlast
  exact ⟨n, rfl, hname⟩

theorem exec_getsize {p : Path} {tree tree' : Tree} (h : exec (getsize p) tree = (tree', .ok ())) :
    tree' = tree := by
  rw [getsize, exec_bind, exec_exists?, continueWith_ok] at h
  split at h
  · exact (Prod.mk.inj h).1.symm
  · cases h

theorem cuts_getsize {p : Path} {tree c : Tree} (h : c ∈ cuts (getsize p) tree) : c = tree := by
  rcases mem_cuts_bind _ _ c tree h with h | ⟨tree', found, hexec, h⟩
  · exact List.mem_singleton.mp h
  · rw [exec_exists?] at hexec
    obtain ⟨rfl, -⟩ := Prod.mk.inj hexec
    split at h <;> exact List.mem_singleton.mp h

/-- Cut off anywhere, the copies have touched the files of the tables alone. -/
theorem cuts_copyTables (hcopies : duckdb.Copies cwd) (hlocal : Local OUT) (hne : OUT ≠ []) (names : List Str)
    (hnames : ∀ t ∈ names, t ∈ tableNames) {tree c : Tree} (hc : c ∈ cuts (copyTables duckdb cwd data OUT names) tree)
    (q : Path) : c.find? q = tree.find? q ∨ ∃ t ∈ names, Beside (fileOf cwd OUT t) q := by
  induction names generalizing tree with
  | nil =>
      obtain rfl := List.mem_singleton.mp hc
      exact Or.inl rfl
  | cons t rest ih =>
      obtain ⟨ht, hrest⟩ := List.forall_mem_cons.mp hnames
      have hcopied : ∀ {c : Tree}, c ∈ cuts (duckdb.execute data (copyText t (parquetPath OUT t))) tree →
          c.find? q = tree.find? q ∨ ∃ t' ∈ t :: rest, Beside (fileOf cwd OUT t') q := by
        intro c hc
        have hscope := hcopies.scope data (map_fst_tables data ▸ ht) (local_parquetPath hlocal ht) hc q
        rw [located_parquetPath hne ht] at hscope
        exact hscope.imp_right fun hbeside => ⟨t, List.mem_cons_self, hbeside⟩
      rcases mem_cuts_bind _ _ c tree hc with hc | ⟨tree₁, _, hexec, hc⟩
      · exact hcopied hc
      · have hafter := exec_mem_cuts (duckdb.execute data (copyText t (parquetPath OUT t))) tree
        rw [hexec] at hafter
        rcases hcopied hafter with hsame | hbeside
        · rcases mem_cuts_bind _ _ c tree₁ hc with hsize | ⟨tree₂, _, hsize, hlater⟩
          · rw [cuts_getsize hsize]
            exact Or.inl hsame
          · obtain rfl := exec_getsize hsize
            rcases ih hrest hlater with hkept | ⟨t', ht', hbeside⟩
            · exact Or.inl (hkept.trans hsame)
            · exact Or.inr ⟨t', List.mem_cons_of_mem _ ht', hbeside⟩
        · exact Or.inr hbeside

theorem exec_copyTables (hcopies : duckdb.Copies cwd) (hlocal : Local OUT) (hne : OUT ≠ []) (names : List Str)
    (hnames : ∀ t ∈ names, t ∈ tableNames)
    (hapart : names.Pairwise fun t t' => ¬ (t ++ ".parquet".toList) <:+: (t' ++ ".parquet".toList) ∧
      ¬ (t' ++ ".parquet".toList) <:+: (t ++ ".parquet".toList)) {tree tree' : Tree}
    (h : exec (copyTables duckdb cwd data OUT names) tree = (tree', .ok ())) :
    ∀ t ∈ names, ∀ rows, (t, rows) ∈ data.tables → ∃ bytes,
      tree'.find? (fileOf cwd OUT t) = some (.file bytes) ∧ duckdb.read_parquet bytes = some rows := by
  induction names generalizing tree with
  | nil => exact nofun
  | cons t rest ih =>
      obtain ⟨ht, hrest⟩ := List.forall_mem_cons.mp hnames
      obtain ⟨hfirst, hothers⟩ := List.pairwise_cons.mp hapart
      rw [copyTables, exec_bind] at h
      rcases hcopy : exec (duckdb.execute data (copyText t (parquetPath OUT t))) tree with ⟨tree₁, r⟩
      cases r with
      | error e =>
          rw [hcopy] at h
          cases h
      | ok _ =>
          rw [hcopy, continueWith_ok, exec_bind] at h
          rcases hsize : exec (getsize (located cwd (parquetPath OUT t))) tree₁ with ⟨tree₂, r⟩
          cases r with
          | error e =>
              rw [hsize] at h
              cases h
          | ok _ =>
              rw [hsize, continueWith_ok] at h
              obtain rfl := exec_getsize hsize
              refine List.forall_mem_cons.mpr ⟨fun rows hrows => ?_, ih hrest hothers h⟩
              obtain ⟨bytes, hfile, hread⟩ := hcopies.written data hrows (local_parquetPath hlocal ht) hcopy
              rw [located_parquetPath hne ht] at hfile
              refine ⟨bytes, ?_, hread⟩
              have hdone := exec_mem_cuts (copyTables duckdb cwd data OUT rest) tree₂
              rw [h] at hdone
              rcases cuts_copyTables hcopies hlocal hne rest hrest hdone (fileOf cwd OUT t) with hkept | ⟨t', ht', hbeside⟩
              · rw [hkept, hfile]
              · obtain ⟨n, hn, hinfix⟩ := besides_fileOf hbeside
                obtain rfl := List.singleton_inj.mp (List.append_cancel_left hn)
                exact absurd hinfix (hfirst t' ht').2

/-! ## The whole script -/

theorem build_of_consistent (duckdb : DuckDB) (cwd : Path) (h : Consistent data) (OUT : Str) :
    build duckdb cwd data OUT = makedirs cwd OUT >>= fun _ =>
      copyTables duckdb cwd data OUT tableNames >>= fun _ => pure (.ok ()) := by
  obtain ⟨db, hload, hverify⟩ := checked_of_consistent h
  rw [build]
  simp only [hload, hverify, data_of_load hload, map_fst_tables]

theorem build_of_not_consistent (duckdb : DuckDB) (cwd : Path) (h : ¬ Consistent data) (OUT : Str) :
    ∃ e, build duckdb cwd data OUT = pure (.error e) := by
  rw [build]
  cases hload : load data with
  | error e => exact ⟨e, rfl⟩
  | ok db =>
      cases hverify : verify db with
      | error e => exact ⟨e, by simp only [hverify]⟩
      | ok _ => exact absurd (consistent_of_checked hload hverify) h

theorem find?_mkdirs {t t' : Tree} {p : Path} (h : t.mkdirs p = .ok t') :
    ∀ q, t'.find? q = t.find? q ∨ (q <+: p ∧ t'.find? q = some .dir) := by
  refine mkdirs_induct (P := fun t' => ∀ q, t'.find? q = t.find? q ∨ (q <+: p ∧ t'.find? q = some .dir))
    h (fun _ => Or.inl rfl) ?_
  intro t' new hvacant hnew ih q
  rw [find?_insert]
  split
  · next hq => exact Or.inr ⟨hq ▸ hnew, rfl⟩
  · exact ih q

theorem cuts_makedirs {tree c : Tree} (hc : c ∈ cuts (makedirs cwd OUT) tree) (q : Path) :
    c.find? q = tree.find? q ∨ (q <+: located cwd OUT ∧ c.find? q = some .dir) := by
  unfold makedirs at hc
  split at hc
  · obtain rfl := List.mem_singleton.mp hc
    exact Or.inl rfl
  · obtain ⟨made, hmade, hmkdirs⟩ := mem_cuts_mkdir_p hc
    exact (find?_mkdirs hmkdirs q).imp_right fun hdir => ⟨hdir.1.trans hmade, hdir.2⟩

theorem ne_nil_of_makedirs {tree tree' : Tree} (h : exec (makedirs cwd OUT) tree = (tree', .ok ())) :
    OUT ≠ [] := by
  rintro rfl
  cases h

theorem cuts_build (hcopies : duckdb.Copies cwd) (hlocal : Local OUT) (h : Consistent data) {tree c : Tree}
    (hc : c ∈ cuts (build duckdb cwd data OUT) tree) (q : Path) :
    c.find? q = tree.find? q ∨ (q <+: located cwd OUT ∧ c.find? q = some .dir) ∨
      ∃ t ∈ tableNames, Beside (fileOf cwd OUT t) q := by
  rw [build_of_consistent duckdb cwd h] at hc
  rcases mem_cuts_bind _ _ c tree hc with hc | ⟨tree₁, _, hexec, hc⟩
  · exact (cuts_makedirs hc q).imp_right Or.inl
  · have hcopy : c ∈ cuts (copyTables duckdb cwd data OUT tableNames) tree₁ := by
      rcases mem_cuts_bind _ _ c tree₁ hc with hc | ⟨tree₂, _, hexec', hc⟩
      · exact hc
      · obtain rfl := List.mem_singleton.mp hc
        have hdone := exec_mem_cuts (copyTables duckdb cwd data OUT tableNames) tree₁
        rwa [hexec'] at hdone
    have hmade := exec_mem_cuts (makedirs cwd OUT) tree
    rw [hexec] at hmade
    rcases cuts_copyTables hcopies hlocal (ne_nil_of_makedirs hexec) tableNames (fun _ ht => ht) hcopy q
      with hsame | hbeside
    · rw [hsame]
      exact (cuts_makedirs hmade q).imp_right Or.inl
    · exact Or.inr (Or.inr hbeside)

theorem exec_build (hcopies : duckdb.Copies cwd) (hlocal : Local OUT) (h : Consistent data) {tree tree' : Tree}
    (hexec : exec (build duckdb cwd data OUT) tree = (tree', .ok (.ok ()))) :
    ∀ e ∈ data.tables, ∃ bytes, tree'.read (fileOf cwd OUT e.1) = .ok bytes ∧
      duckdb.read_parquet bytes = some e.2 := by
  rw [build_of_consistent duckdb cwd h, exec_bind] at hexec
  rcases hmake : exec (makedirs cwd OUT) tree with ⟨tree₁, r⟩
  cases r with
  | error e =>
      rw [hmake] at hexec
      cases hexec
  | ok _ =>
      rw [hmake, continueWith_ok, exec_bind] at hexec
      rcases hcopy : exec (copyTables duckdb cwd data OUT tableNames) tree₁ with ⟨tree₂, r⟩
      cases r with
      | error e =>
          rw [hcopy] at hexec
          cases hexec
      | ok _ =>
          rw [hcopy, continueWith_ok] at hexec
          obtain ⟨rfl, -⟩ := Prod.mk.inj hexec
          rintro ⟨t, rows⟩ he
          have ht : t ∈ tableNames := map_fst_tables data ▸ List.mem_map_of_mem he
          obtain ⟨bytes, hfile, hread⟩ := exec_copyTables hcopies hlocal (ne_nil_of_makedirs hmake) tableNames
            (fun _ ht => ht) apart_tableNames hcopy t ht rows he
          exact ⟨bytes, (read_eq_ok_iff ..).mpr hfile, hread⟩

end

/-- Rows that are not all consistent stop the script with the disk as it was, whatever the
database would do.  Wherever a run on others is cut off, anything it has changed is a
directory made on the way or a file of a table; when it is completed, each file holds
its whole table. -/
theorem build_checked (duckdb : DuckDB) (cwd : Path) (data : Data) (OUT : Str) (tree : Tree) :
    (¬ Consistent data → ∃ e, exec (build duckdb cwd data OUT) tree = (tree, .ok (.error e)) ∧
      ∀ c ∈ cuts (build duckdb cwd data OUT) tree, c = tree) ∧
    (duckdb.Copies cwd → Local OUT → Consistent data →
      (∀ c ∈ cuts (build duckdb cwd data OUT) tree, ∀ q, c.find? q = tree.find? q ∨
        (q <+: located cwd OUT ∧ c.find? q = some .dir) ∨ ∃ t ∈ tableNames, Beside (fileOf cwd OUT t) q) ∧
      ∀ tree', exec (build duckdb cwd data OUT) tree = (tree', .ok (.ok ())) →
        ∀ e ∈ data.tables, ∃ bytes, tree'.read (fileOf cwd OUT e.1) = .ok bytes ∧
          duckdb.read_parquet bytes = some e.2) := by
  constructor
  · intro h
    obtain ⟨e, hbuild⟩ := build_of_not_consistent duckdb cwd h OUT
    rw [hbuild]
    exact ⟨e, rfl, fun c hc => List.mem_singleton.mp hc⟩
  · intro hcopies hlocal h
    exact ⟨fun c hc q => cuts_build hcopies hlocal h hc q, fun tree' hexec => exec_build hcopies hlocal h hexec⟩

/-! ## A database that writes a file at once -/

instance encodableChar : Encodable Char := Encodable.ofLeftInverse Char.toNat Char.ofNat Char.ofNat_toNat

instance encodableDOUBLE : Encodable DOUBLE :=
  Encodable.ofLeftInverse UInt64.toNat UInt64.ofNat fun _ => UInt64.ofNat_toNat

deriving instance Encodable for Run, RunSoftware, Latency, Throughput, Size, Capability, Contents

def encode (rows : Contents) : List UInt8 := (Nat.digits 256 (Encodable.encode rows)).map UInt8.ofNat

def decode (bytes : List UInt8) : Option Contents :=
  Encodable.decode (Nat.ofDigits 256 (bytes.map UInt8.toNat))

theorem decode_encode (rows : Contents) : decode (encode rows) = some rows := by
  have hdigits : (encode rows).map UInt8.toNat = Nat.digits 256 (Encodable.encode rows) := by
    rw [encode, List.map_map, ← List.map_id (Nat.digits 256 (Encodable.encode rows)), List.map_map]
    refine List.map_congr_left fun d hd => ?_
    exact UInt8.toNat_ofNat_of_lt' (Nat.digits_lt_base (by decide) hd)
  rw [decode, hdigits, Nat.ofDigits_digits, Encodable.encodek]

def copyOf (t : Str) : Str := "COPY ".toList ++ t ++ " TO ".toList

def plainDuckDB (cwd : Path) : DuckDB where
  execute data sql :=
    match sql.splitOn '\'' with
    | [start, file, _] =>
      match data.tables.find? fun e => copyOf e.1 = start with
      | some e => File.write (located cwd file) (encode e.2)
      | none => .crash .badMatch
    | _ => .crash .badMatch
  read_parquet := decode

theorem splitOn_copyText {t file : Str} (ht : t ∈ tableNames) (hfile : '\'' ∉ file) :
    (copyText t file).splitOn '\'' = [copyOf t, file, " (FORMAT PARQUET, COMPRESSION ZSTD)".toList] := by
  have hclean : ∀ t ∈ tableNames, '\'' ∉ copyOf t := by decide
  have hopen : " TO '".toList = " TO ".toList ++ ['\''] := rfl
  have hclose : "' (FORMAT PARQUET, COMPRESSION ZSTD)".toList =
      '\'' :: " (FORMAT PARQUET, COMPRESSION ZSTD)".toList := rfl
  have htext : copyText t file = copyOf t ++ '\'' :: (file ++ '\'' :: " (FORMAT PARQUET, COMPRESSION ZSTD)".toList) := by
    unfold copyText copyOf
    rw [hopen, hclose]
    simp only [List.append_assoc, List.cons_append, List.nil_append]
  rw [htext, List.splitOn_append_cons_self, List.splitOn_append_cons_self,
    Lines.splitOn_of_line '\'' (hclean t ht), Lines.splitOn_of_line '\'' hfile,
    Lines.splitOn_of_line '\'' (by decide)]
  rfl

theorem execute_copyText {cwd : Path} {data : Data} {t file : Str} {rows : Contents} (ht : (t, rows) ∈ data.tables)
    (hfile : '\'' ∉ file) :
    (plainDuckDB cwd).execute data (copyText t file) = File.write (located cwd file) (encode rows) := by
  have hfound : data.tables.find? (fun e => copyOf e.1 = copyOf t) = some (t, rows) := by
    simp only [Data.tables, List.mem_cons, Prod.mk.injEq, List.not_mem_nil, or_false] at ht
    rcases ht with ⟨rfl, rfl⟩ | ⟨rfl, rfl⟩ | ⟨rfl, rfl⟩ | ⟨rfl, rfl⟩ | ⟨rfl, rfl⟩ | ⟨rfl, rfl⟩ <;> rfl
  have htext := splitOn_copyText (map_fst_tables data ▸ List.mem_map_of_mem ht) hfile
  simp only [plainDuckDB, htext, hfound]

theorem plainDuckDB_copies (cwd : Path) : (plainDuckDB cwd).Copies cwd where
  scope data t file tree c ht hlocal hc q := by
    obtain ⟨⟨t', rows⟩, he, rfl⟩ := List.mem_map.mp ht
    rw [execute_copyText he hlocal.quoted] at hc
    rcases mem_cuts_write hc with rfl | ⟨part, -, hwrite⟩
    · exact Or.inl rfl
    · rw [find?_write hwrite]
      split
      · next hq =>
          have hne : located cwd file ≠ [] := by
            intro hroot
            rw [hroot, Tree.write, find?_nil] at hwrite
            cases hwrite
          refine Or.inr ⟨(located cwd file).dropLast, (located cwd file).getLast hne, _,
            (List.dropLast_append_getLast hne).symm, ?_, List.infix_rfl⟩
          rw [hq, List.dropLast_append_getLast]
      · exact Or.inl rfl
  written data t file rows tree tree' ht hlocal hexec := by
    rw [execute_copyText ht hlocal.quoted, exec_write] at hexec
    cases hwrite : tree.write (located cwd file) (encode rows) with
    | error e =>
        rw [hwrite] at hexec
        cases hexec
    | ok tree₁ =>
        rw [hwrite, outcome_ok] at hexec
        obtain ⟨rfl, -⟩ := Prod.mk.inj hexec
        exact ⟨encode rows, by rw [find?_write hwrite, if_pos rfl], decode_encode rows⟩

def ciContainer : Data where
  runs := [⟨some "ci-container".toList, some "local".toList, none, some "container".toList, some 16,
    some 65793648, some "6.18.33.1-microsoft-standard-WSL2".toList, none⟩]
  software := [⟨some "ci-container".toList, some "postgresql".toList, some "16".toList⟩]
  latency := [⟨some "ci-container".toList, some "duckdb".toList, some "point_select".toList, some 919100,
    none, none, some 1000⟩]
  throughput := [⟨some "ci-container".toList, some 1, some 2774, some 0, some 0x4024000000000000⟩]
  size := [⟨some "ci-container".toList, some "duckdb".toList, some "peak_rss_bytes".toList, some 108984730⟩]
  capability := [⟨some "ci-container".toList, some "frl_setautocommit_4_12_18_0".toList,
    some "pass".toList, none⟩]

theorem ciContainer_consistent : Consistent ciContainer where
  runs := ⟨nofun, by decide, by decide, by decide⟩
  software := ⟨⟨nofun, by decide, by decide, by decide⟩, by decide⟩
  latency := ⟨⟨nofun, by decide, by decide, by decide⟩, by decide⟩
  throughput := ⟨⟨nofun, by decide, by decide, by decide⟩, by decide⟩
  size := ⟨⟨nofun, by decide, by decide, by decide⟩, by decide⟩
  capability := ⟨⟨nofun, by decide, by decide, by decide⟩, by decide⟩

def outTree : Tree := ⟨[(["parquet".toList], .dir)], by decide, by decide, by decide⟩

theorem parquet_local : Local "parquet".toList := by decide

theorem ciContainer_completes :
    exec (build (plainDuckDB []) [] ciContainer "parquet".toList) outTree =
      ((exec (build (plainDuckDB []) [] ciContainer "parquet".toList) outTree).1, .ok (.ok ())) := rfl

theorem build_checked_ciContainer : ∃ t', exec (build (plainDuckDB []) [] ciContainer "parquet".toList) outTree =
      (t', .ok (.ok ())) ∧
    ∀ e ∈ ciContainer.tables, ∃ bytes, t'.read (fileOf [] "parquet".toList e.1) = .ok bytes ∧
      decode bytes = some e.2 := by
  obtain ⟨-, h⟩ := build_checked (plainDuckDB []) [] ciContainer "parquet".toList outTree
  obtain ⟨-, hfiles⟩ := h (plainDuckDB_copies []) parquet_local ciContainer_consistent
  exact ⟨_, ciContainer_completes, hfiles _ ciContainer_completes⟩

end Measurements
