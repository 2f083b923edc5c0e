import Mathlib.Data.List.Induction
import Mathlib.Data.List.Nodup

/-! # Dictionaries that remember insertion order

Assigning to a key that is there replaces its value and leaves the key where it
first stood; assigning to a new key appends.  No key occurs twice. -/
set_option autoImplicit false

namespace OrderedDict

structure Dict (κ ν : Type) where
  entries : List (κ × ν)
  nodup : (entries.map Prod.fst).Nodup

section Ops
variable {κ ν : Type} [DecidableEq κ]

def put (k : κ) (v : ν) : List (κ × ν) → List (κ × ν)
  | [] => [(k, v)]
  | (k', v') :: rest => if k' = k then (k, v) :: rest else (k', v') :: put k v rest

theorem keys_put (k : κ) (v : ν) : ∀ l : List (κ × ν),
    (put k v l).map Prod.fst =
      if k ∈ l.map Prod.fst then l.map Prod.fst else l.map Prod.fst ++ [k] := by
  intro l
  induction l with
  | nil => rfl
  | cons e rest ih =>
      obtain ⟨k', v'⟩ := e
      by_cases h : k' = k
      · subst h; simp [put]
      · simp only [put, if_neg h, List.map_cons, ih, List.mem_cons, Ne.symm h, false_or]
        split <;> simp

def Dict.empty : Dict κ ν := ⟨[], List.nodup_nil⟩

def Dict.set (d : Dict κ ν) (k : κ) (v : ν) : Dict κ ν where
  entries := put k v d.entries
  nodup := by
    rw [keys_put]
    split
    · exact d.nodup
    · next h => exact d.nodup.append (List.nodup_singleton k) (by simpa using h)

def Dict.get? (d : Dict κ ν) (k : κ) : Option ν := (d.entries.find? (·.1 = k)).map Prod.snd

def Dict.keys (d : Dict κ ν) : List κ := d.entries.map Prod.fst

instance : Membership κ (Dict κ ν) := ⟨fun d k => k ∈ d.keys⟩

instance (d : Dict κ ν) (k : κ) : Decidable (k ∈ d) := inferInstanceAs (Decidable (k ∈ d.keys))

/-- The first key whose value passes, in insertion order. -/
def Dict.firstKey (d : Dict κ ν) (p : ν → Bool) : Option κ :=
  (d.entries.find? fun e => p e.2).map Prod.fst

/-! ## Reading back -/

theorem mem_put_iff {k : κ} {v : ν} {l : List (κ × ν)} (hl : (l.map Prod.fst).Nodup) (e : κ × ν) :
    e ∈ put k v l ↔ e = (k, v) ∨ (e ∈ l ∧ e.1 ≠ k) := by
  induction l with
  | nil => simp [put]
  | cons e' rest ih =>
      obtain ⟨k', v'⟩ := e'
      rw [List.map_cons, List.nodup_cons] at hl
      have fresh : ∀ e ∈ rest, e.1 ≠ k' := by
        intro e he h
        exact hl.1 (List.mem_map.mpr ⟨e, he, h⟩)
      by_cases h : k' = k
      · subst h
        simp only [put, if_true, List.mem_cons]
        constructor
        · intro h
          rcases h with h | h
          · exact Or.inl h
          · exact Or.inr ⟨Or.inr h, fresh e h⟩
        · intro h
          rcases h with h | ⟨rfl | h, hne⟩
          · exact Or.inl h
          · exact absurd rfl hne
          · exact Or.inr h
      · simp only [put, if_neg h, List.mem_cons, ih hl.2]
        constructor
        · intro h
          rcases h with rfl | h' | ⟨h', hne⟩
          · exact Or.inr ⟨Or.inl rfl, h⟩
          · exact Or.inl h'
          · exact Or.inr ⟨Or.inr h', hne⟩
        · intro h
          rcases h with h' | ⟨rfl | h', hne⟩
          · exact Or.inr (Or.inl h')
          · exact Or.inl rfl
          · exact Or.inr (Or.inr ⟨h', hne⟩)

theorem get?_eq_some_iff (d : Dict κ ν) (k : κ) (v : ν) :
    d.get? k = some v ↔ (k, v) ∈ d.entries := by
  have unique : ∀ (l : List (κ × ν)), (l.map Prod.fst).Nodup →
      ((l.find? (·.1 = k)).map Prod.snd = some v ↔ (k, v) ∈ l) := by
    intro l
    induction l with
    | nil => simp
    | cons e rest ih =>
        intro hl
        obtain ⟨k', v'⟩ := e
        rw [List.map_cons, List.nodup_cons] at hl
        by_cases h : k' = k
        · subst h
          have : ∀ w, (k', w) ∉ rest := fun w hw => hl.1 (List.mem_map.mpr ⟨(k', w), hw, rfl⟩)
          simp [this, eq_comm]
        · simp [h, Ne.symm h, ih hl.2]
  exact unique d.entries d.nodup

theorem mem_iff_get? (d : Dict κ ν) (k : κ) : k ∈ d ↔ ∃ v, d.get? k = some v := by
  simp only [get?_eq_some_iff]
  constructor
  · intro h
    obtain ⟨e, he, rfl⟩ := List.mem_map.mp h
    exact ⟨e.2, he⟩
  · intro h
    obtain ⟨v, hv⟩ := h
    exact List.mem_map.mpr ⟨(k, v), hv, rfl⟩

theorem get?_eq_none_iff (d : Dict κ ν) (k : κ) : d.get? k = none ↔ k ∉ d := by
  rw [mem_iff_get?]
  cases d.get? k <;> simp

@[simp] theorem get?_empty (k : κ) : (Dict.empty : Dict κ ν).get? k = none := rfl

omit [DecidableEq κ] in
@[simp] theorem not_mem_empty (k : κ) : k ∉ (Dict.empty : Dict κ ν) := List.not_mem_nil

@[simp] theorem get?_set_self (d : Dict κ ν) (k : κ) (v : ν) : (d.set k v).get? k = some v := by
  rw [get?_eq_some_iff]
  exact (mem_put_iff d.nodup _).mpr (Or.inl rfl)

theorem get?_set_ne (d : Dict κ ν) {k k' : κ} (v : ν) (h : k' ≠ k) :
    (d.set k v).get? k' = d.get? k' := by
  ext w
  rw [get?_eq_some_iff, get?_eq_some_iff]
  simp [Dict.set, mem_put_iff d.nodup, h]

theorem get?_set (d : Dict κ ν) (k k' : κ) (v : ν) :
    (d.set k v).get? k' = if k' = k then some v else d.get? k' := by
  split
  · next h => subst h; exact get?_set_self d k' v
  · next h => exact get?_set_ne d v h

@[simp] theorem mem_set (d : Dict κ ν) (k k' : κ) (v : ν) : k' ∈ d.set k v ↔ k' = k ∨ k' ∈ d := by
  simp only [mem_iff_get?, get?_set]
  by_cases h : k' = k <;> simp [h]

theorem firstKey_eq_some {d : Dict κ ν} {p : ν → Bool} {k : κ} (h : d.firstKey p = some k) :
    ∃ v, d.get? k = some v ∧ p v = true := by
  obtain ⟨e, he, rfl⟩ := Option.map_eq_some_iff.mp h
  exact ⟨e.2, (get?_eq_some_iff d e.1 e.2).mpr (List.mem_of_find?_eq_some he),
    by simpa using List.find?_some he⟩

theorem firstKey_eq_none {d : Dict κ ν} {p : ν → Bool} :
    d.firstKey p = none ↔ ∀ k v, d.get? k = some v → p v = false := by
  simp only [Dict.firstKey, Option.map_eq_none_iff, List.find?_eq_none, get?_eq_some_iff,
    Bool.not_eq_true]
  exact ⟨fun h k v hkv => h (k, v) hkv, fun h e he => h e.1 e.2 he⟩

/-! ## Assigning a list of pairs, from the left -/

def Dict.assign (d : Dict κ ν) (l : List (κ × ν)) : Dict κ ν := l.foldl (fun d e => d.set e.1 e.2) d

def Dict.ofList (l : List (κ × ν)) : Dict κ ν := Dict.empty.assign l

@[simp] theorem assign_cons (d : Dict κ ν) (e : κ × ν) (l : List (κ × ν)) :
    d.assign (e :: l) = (d.set e.1 e.2).assign l := rfl

theorem assign_append (d : Dict κ ν) (l l' : List (κ × ν)) :
    d.assign (l ++ l') = (d.assign l).assign l' := List.foldl_append ..

theorem mem_ofList (l : List (κ × ν)) (k : κ) : k ∈ Dict.ofList l ↔ k ∈ l.map Prod.fst := by
  have main : ∀ (l : List (κ × ν)) (d : Dict κ ν), k ∈ d.assign l ↔ k ∈ l.map Prod.fst ∨ k ∈ d := by
    intro l
    induction l with
    | nil => intro d; simp [Dict.assign]
    | cons e rest ih =>
        intro d
        rw [assign_cons, ih, mem_set, List.map_cons, List.mem_cons]
        tauto
  simp [Dict.ofList, main]

theorem get?_assign (d : Dict κ ν) (l : List (κ × ν)) (k : κ) :
    (d.assign l).get? k = ((Dict.ofList l).get? k).or (d.get? k) := by
  induction l using List.reverseRecOn with
  | nil => simp [Dict.assign, Dict.ofList]
  | append_singleton l e ih =>
      have hlast : ∀ d : Dict κ ν, d.assign (l ++ [e]) = (d.assign l).set e.1 e.2 := fun d => by
        simp [Dict.assign, List.foldl_append]
      rw [hlast, Dict.ofList, hlast, get?_set, get?_set, ih]
      split <;> rfl

theorem get?_ofList_append (l l' : List (κ × ν)) (k : κ) :
    (Dict.ofList (l ++ l')).get? k =
      ((Dict.ofList l').get? k).or ((Dict.ofList l).get? k) := by
  rw [Dict.ofList, assign_append, get?_assign]
  rfl

/-- The last pair with a key is the one that stays. -/
theorem get?_ofList_of_last {k : κ} {v : ν} (l l' : List (κ × ν)) (h : k ∉ l'.map Prod.fst) :
    (Dict.ofList (l ++ (k, v) :: l')).get? k = some v := by
  have hnone : (Dict.ofList l').get? k = none := by
    rw [get?_eq_none_iff, mem_ofList]
    exact h
  rw [get?_ofList_append, ← List.singleton_append, get?_ofList_append, hnone]
  simp [Dict.ofList, Dict.assign]

theorem mem_of_get?_ofList {l : List (κ × ν)} {k : κ} {v : ν} (h : (Dict.ofList l).get? k = some v) :
    (k, v) ∈ l := by
  have main : ∀ (l : List (κ × ν)) (d : Dict κ ν), (d.assign l).get? k = some v →
      (k, v) ∈ l ∨ d.get? k = some v := by
    intro l
    induction l with
    | nil => intro d h; exact Or.inr h
    | cons e rest ih =>
        intro d h
        rcases ih _ h with hmem | hset
        · exact Or.inl (List.mem_cons_of_mem _ hmem)
        · rw [get?_set] at hset
          split at hset
          · next hk =>
              refine Or.inl (List.mem_cons.mpr (Or.inl ?_))
              rw [hk, ← Option.some.inj hset]
          · exact Or.inr hset
  exact (main l .empty h).resolve_right (by simp)

theorem firstKey_ofList_cons {e : κ × ν} {rest : List (κ × ν)} {p : ν → Bool} {v : ν}
    (hv : (Dict.ofList (e :: rest)).get? e.1 = some v) (hp : p v = true) :
    (Dict.ofList (e :: rest)).firstKey p = some e.1 := by
  have main : ∀ (l : List (κ × ν)) (d : Dict κ ν), (∃ w tail, d.entries = (e.1, w) :: tail) →
      ∃ w tail, (d.assign l).entries = (e.1, w) :: tail := by
    intro l
    induction l with
    | nil => intro d h; exact h
    | cons x l ih =>
        rintro d ⟨w, tail, hd⟩
        refine ih _ ?_
        simp only [Dict.set, hd, put]
        split
        · next h => exact ⟨x.2, tail, by rw [h]⟩
        · exact ⟨w, _, rfl⟩
  obtain ⟨w, tail, hentries⟩ := main rest (Dict.empty.set e.1 e.2) ⟨e.2, [], rfl⟩
  have hdict : (Dict.ofList (e :: rest)).entries = (e.1, w) :: tail := hentries
  rw [get?_eq_some_iff, hdict] at hv
  have hw : w = v := by
    have hnodup := (Dict.ofList (e :: rest)).nodup
    rw [hdict, List.map_cons, List.nodup_cons] at hnodup
    rcases List.mem_cons.mp hv with h | h
    · exact (Prod.mk.inj h).2.symm
    · exact absurd (List.mem_map.mpr ⟨_, h, rfl⟩) hnodup.1
  rw [Dict.firstKey, hdict, hw, List.find?_cons_of_pos (by simpa using hp)]
  rfl

/-- Leaving a key out of the list leaves it out of the dictionary and moves nothing else. -/
theorem entries_ofList_filter (l : List (κ × ν)) (k : κ) :
    (Dict.ofList (l.filter (·.1 ≠ k))).entries = (Dict.ofList l).entries.filter (·.1 ≠ k) := by
  have hput : ∀ (k' : κ) (v : ν) (l : List (κ × ν)), (put k' v l).filter (·.1 ≠ k) =
      if k' = k then l.filter (·.1 ≠ k) else put k' v (l.filter (·.1 ≠ k)) := by
    intro k' v l
    induction l with
    | nil => by_cases h : k' = k <;> simp [put, h]
    | cons e rest ih =>
        obtain ⟨a, b⟩ := e
        by_cases ha : a = k'
        · subst ha
          by_cases h : a = k <;> simp [put, h]
        · rw [put, if_neg ha]
          by_cases hak : a = k
          · rw [List.filter_cons_of_neg (by simpa using hak), ih,
              List.filter_cons_of_neg (by simpa using hak)]
          · rw [List.filter_cons_of_pos (by simpa using hak), ih,
              List.filter_cons_of_pos (by simpa using hak), put, if_neg ha]
            split <;> rfl
  have main : ∀ (l : List (κ × ν)) (d d' : Dict κ ν), d'.entries = d.entries.filter (·.1 ≠ k) →
      (d'.assign (l.filter (·.1 ≠ k))).entries = (d.assign l).entries.filter (·.1 ≠ k) := by
    intro l
    induction l with
    | nil => intro d d' h; exact h
    | cons e rest ih =>
        intro d d' h
        by_cases he : e.1 = k
        · rw [List.filter_cons_of_neg (by simpa using he), assign_cons]
          exact ih _ _ (by rw [h, Dict.set, hput, if_pos he])
        · rw [List.filter_cons_of_pos (by simpa using he), assign_cons, assign_cons]
          exact ih _ _ (by simp only [Dict.set, h, hput, if_neg he])
  exact main l .empty .empty rfl

theorem firstKey_ofList_filter {l : List (κ × ν)} {k : κ} {p : ν → Bool}
    (h : ∀ v, (Dict.ofList l).get? k = some v → p v = false) :
    (Dict.ofList (l.filter (·.1 ≠ k))).firstKey p = (Dict.ofList l).firstKey p := by
  have main : ∀ es : List (κ × ν), (∀ e ∈ es, e.1 = k → p e.2 = false) →
      (es.filter (·.1 ≠ k)).find? (fun e => p e.2) = es.find? fun e => p e.2 := by
    intro es
    induction es with
    | nil => intro _; rfl
    | cons e rest ih =>
        intro hes
        obtain ⟨he, hrest⟩ := List.forall_mem_cons.mp hes
        by_cases hk : e.1 = k
        · rw [List.filter_cons_of_neg (by simpa using hk), ih hrest,
            List.find?_cons_of_neg (by simpa using he hk)]
        · rw [List.filter_cons_of_pos (by simpa using hk), List.find?_cons, List.find?_cons, ih hrest]
  rw [Dict.firstKey, Dict.firstKey, entries_ofList_filter, main]
  rintro ⟨a, v⟩ he rfl
  exact h v ((get?_eq_some_iff ..).mpr he)

end Ops
end OrderedDict
