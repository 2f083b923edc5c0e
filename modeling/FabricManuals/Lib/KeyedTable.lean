import Mathlib.Data.List.Nodup

/-! # Tables with a primary key

Rows a database has accepted: their values fit the columns, no column of the key is
NULL, and no key occurs twice.  A row's key is `none` where one of its columns is NULL. -/
set_option autoImplicit false

namespace KeyedTable

structure Schema (ρ κ : Type) where
  key : ρ → Option κ
  fits : ρ → Bool

structure Table {ρ κ : Type} (S : Schema ρ κ) where
  rows : List ρ
  fits : ∀ r ∈ rows, S.fits r = true
  keyed : ∀ r ∈ rows, S.key r ≠ none
  nodup : (rows.map S.key).Nodup

inductive Refusal
  | noRows
  | conversion
  | notNull
  | duplicateKey
deriving DecidableEq

section
variable {ρ κ : Type} {S : Schema ρ κ}

theorem Table.ext {T T' : Table S} (h : T.rows = T'.rows) : T = T' := by
  cases T
  cases T'
  cases h
  rfl

def Table.empty (S : Schema ρ κ) : Table S := ⟨[], nofun, nofun, List.nodup_nil⟩

variable [DecidableEq κ]

def Table.insert (T : Table S) (r : ρ) : Except Refusal (Table S) :=
  if hfits : S.fits r = true then
    if hkey : S.key r = none then .error .notNull
    else if hnew : S.key r ∈ T.rows.map S.key then .error .duplicateKey
    else .ok {
      rows := T.rows ++ [r]
      fits := by simpa [or_imp, forall_and, hfits] using T.fits
      keyed := by simpa [or_imp, forall_and, hkey] using T.keyed
      nodup := by
        rw [List.map_append]
        refine T.nodup.append (List.nodup_singleton _) fun k hk hk' => ?_
        rw [List.map_singleton, List.mem_singleton] at hk'
        exact hnew (hk' ▸ hk) }
  else .error .conversion

/-- The row is refused only if no table holds it behind the others. -/
theorem insert_eq_ok_iff {T T' : Table S} {r : ρ} : T.insert r = .ok T' ↔ T'.rows = T.rows ++ [r] := by
  constructor
  · intro h
    unfold Table.insert at h
    split at h
    · split at h
      · cases h
      · split at h
        · cases h
        · rw [← Except.ok.inj h]
    · cases h
  · intro h
    have hmem : r ∈ T'.rows := h ▸ List.mem_append_right _ (List.mem_singleton_self r)
    have hnew : S.key r ∉ T.rows.map S.key := by
      intro hold
      have hnodup := T'.nodup
      rw [h, List.map_append] at hnodup
      exact (List.nodup_append.mp hnodup).2.2 _ hold _ (by simp) rfl
    rw [Table.insert, dif_pos (T'.fits r hmem), dif_neg (T'.keyed r hmem), dif_neg hnew]
    exact congrArg _ (Table.ext h.symm)

theorem insertAll_eq_ok_iff {rows : List ρ} {T T' : Table S} :
    rows.foldlM Table.insert T = .ok T' ↔ T'.rows = T.rows ++ rows := by
  induction rows generalizing T with
  | nil =>
      rw [List.append_nil]
      constructor
      · intro h
        rw [Except.ok.inj h]
      · exact fun h => congrArg _ (Table.ext h.symm)
  | cons r rest ih =>
      rw [List.foldlM_cons]
      constructor
      · intro h
        cases hr : T.insert r with
        | error e => rw [hr] at h; cases h
        | ok next =>
            rw [hr] at h
            rw [ih.mp h, insert_eq_ok_iff.mp hr, List.append_assoc, List.singleton_append]
      · intro h
        -- the rows up to this one are part of a table, so they make one
        have hpart : T.rows ++ [r] <+: T'.rows := ⟨rest, by rw [h, List.append_assoc]; rfl⟩
        have hsub : ∀ x ∈ T.rows ++ [r], x ∈ T'.rows := fun x hx => hpart.subset hx
        let next : Table S :=
          { rows := T.rows ++ [r]
            fits := fun x hx => T'.fits x (hsub x hx)
            keyed := fun x hx => T'.keyed x (hsub x hx)
            nodup := T'.nodup.sublist (hpart.sublist.map S.key) }
        have hnext : T.insert r = .ok next := insert_eq_ok_iff.mpr rfl
        rw [hnext]
        exact ih.mpr (by rw [h, List.append_assoc]; rfl)

/-- One `INSERT` for each row, into a table just created. -/
def executemany (S : Schema ρ κ) (rows : List ρ) : Except Refusal (Table S) :=
  if rows = [] then .error .noRows else rows.foldlM Table.insert (Table.empty S)

theorem executemany_eq_ok_iff {rows : List ρ} {T : Table S} :
    executemany S rows = .ok T ↔ rows ≠ [] ∧ T.rows = rows := by
  rw [executemany]
  split
  · next h => simp [h]
  · next h =>
      rw [insertAll_eq_ok_iff]
      exact ⟨fun hrows => ⟨h, hrows⟩, fun hrows => hrows.2⟩

/-- What a database asks of the rows of one table. -/
structure Admissible (S : Schema ρ κ) (rows : List ρ) : Prop where
  nonempty : rows ≠ []
  fits : ∀ r ∈ rows, S.fits r = true
  keyed : ∀ r ∈ rows, S.key r ≠ none
  nodup : (rows.map S.key).Nodup

end

section
variable {ρ σ κ : Type} [DecidableEq κ]

/-- `v NOT IN (SELECT …)`; `none` is what SQL calls unknown. -/
def notIn (v : Option κ) (vs : List (Option κ)) : Option Bool :=
  if vs = [] then some true
  else match v with
    | none => none
    | some _ => if v ∈ vs then some false else if none ∈ vs then none else some true

/-- `SELECT count(*) … WHERE ref NOT IN (…)` counts a row only where the answer is known. -/
def orphans (ref : ρ → Option κ) (rows : List ρ) (keys : List (Option κ)) : Nat :=
  (rows.filter fun r => notIn (ref r) keys = some true).length

theorem notIn_eq_true_iff {v : Option κ} {vs : List (Option κ)} (hv : v ≠ none) (hvs : none ∉ vs) :
    notIn v vs = some true ↔ v ∉ vs := by
  obtain ⟨a, rfl⟩ := Option.ne_none_iff_exists'.mp hv
  rw [notIn]
  by_cases hnil : vs = []
  · simp [hnil]
  · rw [if_neg hnil]
    by_cases hmem : some a ∈ vs
    · simp [hmem]
    · simp [hmem, hvs]

theorem orphans_eq_zero_iff {ref : ρ → Option κ} {rows : List ρ} {keys : List (Option κ)}
    (hrows : ∀ r ∈ rows, ref r ≠ none) (hkeys : none ∉ keys) :
    orphans ref rows keys = 0 ↔ ∀ r ∈ rows, ref r ∈ keys := by
  rw [orphans, List.length_eq_zero_iff, List.filter_eq_nil_iff]
  refine forall₂_congr fun r hr => ?_
  rw [decide_eq_true_eq, notIn_eq_true_iff (hrows r hr) hkeys, not_not]

/-- `rows JOIN others USING (…)`; NULL joins nothing. -/
def join (ref : ρ → Option κ) (key : σ → Option κ) (rows : List ρ) (others : List σ) : List (ρ × σ) :=
  rows.flatMap fun r => (others.filter fun o => ref r ≠ none ∧ key o = ref r).map fun o => (r, o)

theorem mem_join {ref : ρ → Option κ} {key : σ → Option κ} {rows : List ρ} {others : List σ} {x : ρ × σ} :
    x ∈ join ref key rows others ↔
      x.1 ∈ rows ∧ x.2 ∈ others ∧ ref x.1 ≠ none ∧ key x.2 = ref x.1 := by
  obtain ⟨r, o⟩ := x
  simp only [join, List.mem_flatMap, List.mem_map, List.mem_filter, decide_eq_true_eq, Prod.mk.injEq]
  constructor
  · rintro ⟨r', hr', o', ⟨ho', href, hkey⟩, rfl, rfl⟩
    exact ⟨hr', ho', href, hkey⟩
  · rintro ⟨hr, ho, href, hkey⟩
    exact ⟨r, hr, o, ⟨ho, href, hkey⟩, rfl, rfl⟩

theorem Table.filter_key_eq {S : Schema σ κ} (T : Table S) {o : σ} (ho : o ∈ T.rows) :
    (T.rows.filter fun o' => S.key o' = S.key o) = [o] := by
  obtain ⟨before, after, hrows⟩ := List.append_of_mem ho
  have hnodup := T.nodup
  rw [hrows, List.map_append, List.map_cons, List.nodup_middle, List.nodup_cons, ← List.map_append] at hnodup
  have hothers : ∀ o' ∈ before ++ after, S.key o' ≠ S.key o :=
    fun o' ho' hkey => hnodup.1 (List.mem_map.mpr ⟨o', ho', hkey⟩)
  rw [hrows, List.filter_append, List.filter_cons_of_pos (by simp)]
  have hbefore : (before.filter fun o' => S.key o' = S.key o) = [] :=
    List.filter_eq_nil_iff.mpr fun o' ho' => by simpa using hothers o' (List.mem_append_left _ ho')
  have hafter : (after.filter fun o' => S.key o' = S.key o) = [] :=
    List.filter_eq_nil_iff.mpr fun o' ho' => by simpa using hothers o' (List.mem_append_right _ ho')
  rw [hbefore, hafter, List.nil_append]

/-- A join along references that are all intact gives each row back, once and in its place. -/
theorem join_map_fst {ref : ρ → Option κ} {rows : List ρ} {S : Schema σ κ} (T : Table S)
    (hrefs : ∀ r ∈ rows, ref r ∈ T.rows.map S.key) :
    (join ref S.key rows T.rows).map Prod.fst = rows := by
  induction rows with
  | nil => rfl
  | cons r rest ih =>
      obtain ⟨hr, hrest⟩ := List.forall_mem_cons.mp hrefs
      obtain ⟨o, ho, hkey⟩ := List.mem_map.mp hr
      have hone : (T.rows.filter fun o' => ref r ≠ none ∧ S.key o' = ref r) = [o] := by
        rw [← hkey, ← T.filter_key_eq ho]
        exact List.filter_congr fun o' _ => by simp [T.keyed o ho]
      rw [join, List.flatMap_cons, hone, List.map_append, ← join, ih hrest]
      rfl

end

end KeyedTable
