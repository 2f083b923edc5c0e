import FabricManuals.Lib.Attempts
import FabricManuals.References.Model
import Mathlib.Algebra.Ring.Nat

/-! # The authors the schema admits

Of the five fields that may name a person the code reads two, and it takes the second
for granted where the first is there. -/
set_option autoImplicit false

namespace References

open TextFile OrderedDict Attempts

def namingFields : List Str :=
  [familyNames, givenNames, "name-particle".toList, "name-suffix".toList, "alias".toList]

/-- A person has at least one of the naming fields, and no text of the schema is empty. -/
structure IsPerson (a : Record) : Prop where
  named : ∃ k ∈ namingFields, k ∈ a
  filled : ∀ k ∈ namingFields, ∀ v, a.get? k = some v → v ≠ []
  noName : name ∉ a

structure IsEntity (a : Record) : Prop where
  named : ∃ v, a.get? name = some v ∧ v ≠ []
  noFamily : familyNames ∉ a
  noGiven : givenNames ∉ a

structure Author where
  record : Record
  valid : IsPerson record ∨ IsEntity record

/-- A name for the author: for an entity its name, for a person with both names these
two, and otherwise any text that is not empty. -/
structure IsNameOf (a : Author) (n : Str) : Prop where
  ne_nil : n ≠ []
  entity : ∀ v, a.record.get? name = some v → n = v
  person : ∀ family given, a.record.get? familyNames = some family →
    a.record.get? givenNames = some given → n = family ++ ", ".toList ++ given

/-- Names one after the other, a semicolon between neighbours and "and" before the last. -/
def listed : List Str → Str
  | [] => []
  | [n] => n
  | [n, last] => n ++ "; and ".toList ++ last
  | n :: m :: k :: rest => n ++ "; ".toList ++ listed (m :: k :: rest)

/-- `text` has a name for each author, in order, and nothing else. -/
def Lists (authors : List Author) (text : Str) : Prop :=
  ∃ names, List.Forall₂ IsNameOf authors names ∧ text = listed names

def Author.Shown (a : Author) : Prop :=
  name ∈ a.record ∨ (familyNames ∈ a.record ∧ givenNames ∈ a.record)

theorem joinAuthors_eq_listed : ∀ parts : List Str, joinAuthors parts = listed parts
  | [] => rfl
  | [n] => rfl
  | [n, last] => by simp [joinAuthors, joinWith, listed]
  | n :: m :: k :: rest => by
    have ih := joinAuthors_eq_listed (m :: k :: rest)
    have hjoin : joinWith "; ".toList (n :: m :: k :: rest).dropLast =
        n ++ "; ".toList ++ joinWith "; ".toList (m :: k :: rest).dropLast := by
      simp [joinWith, List.intercalate_cons_cons]
    rw [joinAuthors, if_neg (by simp)] at ih ⊢
    have hlast : (n :: m :: k :: rest).getLastD [] = (m :: k :: rest).getLastD [] := rfl
    rw [listed, ← ih, hjoin, hlast]
    simp only [List.append_assoc]

/-- What the separators of so many names take up. -/
def room (count : Nat) : Nat := if count ≤ 1 then 0 else 2 * count + 2

theorem length_listed : ∀ names : List Str,
    (listed names).length = (names.map List.length).sum + room names.length
  | [] => rfl
  | [n] => by simp [listed, room]
  | [n, last] => by
    simp [listed, room]
    omega
  | n :: m :: k :: rest => by
    have ih := length_listed (m :: k :: rest)
    simp only [listed, List.length_append, ih, List.map_cons, List.sum_cons, List.length_cons, room]
    have hsep : "; ".toList.length = 2 := rfl
    rw [if_neg (by omega), if_neg (by omega)]
    omega

/-- Parts that are the names or empty are the names, if together they are as long. -/
theorem eq_of_sum_length {names parts : List Str}
    (h : List.Forall₂ (fun n p => n ≠ [] ∧ (p = n ∨ p = [])) names parts) :
    (parts.map List.length).sum ≤ (names.map List.length).sum ∧
      ((names.map List.length).sum = (parts.map List.length).sum → parts = names) := by
  induction h with
  | nil => exact ⟨Nat.le_refl _, fun _ => rfl⟩
  | @cons n p names parts hp _ ih =>
      obtain ⟨hne, hp⟩ := hp
      obtain ⟨hle, heq⟩ := ih
      have hpos : 0 < n.length := List.length_pos_of_ne_nil hne
      simp only [List.map_cons, List.sum_cons]
      rcases hp with rfl | rfl
      · refine ⟨by omega, fun hsum => ?_⟩
        rw [heq (by omega)]
      · refine ⟨by simp; omega, fun hsum => ?_⟩
        simp only [List.length_nil] at hsum
        omega

theorem eq_of_listed_eq {names parts : List Str}
    (h : List.Forall₂ (fun n p => n ≠ [] ∧ (p = n ∨ p = [])) names parts)
    (heq : listed names = listed parts) : parts = names := by
  have hlength := congrArg List.length heq
  rw [length_listed, length_listed, h.length_eq] at hlength
  exact (eq_of_sum_length h).2 (Nat.add_right_cancel hlength)

theorem Author.isEntity {a : Author} (h : name ∈ a.record) : IsEntity a.record :=
  a.valid.resolve_left fun hperson => hperson.noName h

theorem fmtAuthor_cases {a : Author} {p : Str} (h : fmtAuthor a.record = .ok p) :
    (a.Shown ∧ IsNameOf a p) ∨ (¬ a.Shown ∧ p = []) := by
  rw [fmtAuthor] at h
  cases hfamily : a.record.get? familyNames with
  | some family =>
      cases hgiven : a.record.get? givenNames with
      | none => simp [hfamily, hgiven] at h
      | some given =>
          simp only [hfamily, hgiven, Except.ok.injEq] at h
          have hin : familyNames ∈ a.record := (mem_iff_get? ..).mpr ⟨family, hfamily⟩
          refine Or.inl ⟨Or.inr ⟨hin, (mem_iff_get? ..).mpr ⟨given, hgiven⟩⟩, ?_, fun v hv => ?_, ?_⟩
          · rw [← h]
            simp
          · exact absurd hin (a.isEntity ((mem_iff_get? ..).mpr ⟨v, hv⟩)).noFamily
          · intro family' given' hfamily' hgiven'
            rw [hfamily, Option.some.injEq] at hfamily'
            rw [hgiven, Option.some.injEq] at hgiven'
            rw [← h, hfamily', hgiven']
  | none =>
      simp only [hfamily, Except.ok.injEq] at h
      have hout : familyNames ∉ a.record := (get?_eq_none_iff ..).mp hfamily
      cases hname : a.record.get? name with
      | some v =>
          have hin : name ∈ a.record := (mem_iff_get? ..).mpr ⟨v, hname⟩
          obtain ⟨w, hw, hne⟩ := (a.isEntity hin).named
          rw [hname, Option.getD_some] at h
          rw [hname, Option.some.injEq] at hw
          refine Or.inl ⟨Or.inl hin, h ▸ hw ▸ hne, fun u hu => ?_, fun family _ hf => ?_⟩
          · rw [hname, Option.some.injEq] at hu
            rw [← h, hu]
          · rw [hfamily] at hf
            cases hf
      | none =>
          rw [hname, Option.getD_none] at h
          refine Or.inr ⟨fun hshown => ?_, h.symm⟩
          rcases hshown with hin | hin
          · exact (get?_eq_none_iff ..).mp hname hin
          · exact hout hin.1

theorem fmtAuthor_of_shown {a : Author} (h : a.Shown) :
    ∃ p, fmtAuthor a.record = .ok p ∧ IsNameOf a p := by
  have hok : ∃ p, fmtAuthor a.record = .ok p := by
    rw [fmtAuthor]
    rcases h with hname | ⟨hfamily, hgiven⟩
    · rw [(get?_eq_none_iff ..).mpr (a.isEntity hname).noFamily]
      exact ⟨_, rfl⟩
    · obtain ⟨family, hfamily⟩ := (mem_iff_get? ..).mp hfamily
      obtain ⟨given, hgiven⟩ := (mem_iff_get? ..).mp hgiven
      rw [hfamily, hgiven]
      exact ⟨_, rfl⟩
  obtain ⟨p, hp⟩ := hok
  rcases fmtAuthor_cases hp with ⟨-, hn⟩ | ⟨hnot, -⟩
  · exact ⟨p, hp, hn⟩
  · exact absurd h hnot

theorem isNameOf_unique {a : Author} (h : a.Shown) {n p : Str} (hn : IsNameOf a n)
    (hp : IsNameOf a p) : p = n := by
  rcases h with hname | ⟨hfamily, hgiven⟩
  · obtain ⟨v, hv⟩ := (mem_iff_get? ..).mp hname
    rw [hn.entity v hv, hp.entity v hv]
  · obtain ⟨family, hfamily⟩ := (mem_iff_get? ..).mp hfamily
    obtain ⟨given, hgiven⟩ := (mem_iff_get? ..).mp hgiven
    rw [hn.person family given hfamily hgiven, hp.person family given hfamily hgiven]

theorem fmtAuthors_eq_ok_iff (records : List Record) (text : Str) :
    fmtAuthors records = .ok text ↔
      ∃ parts, List.Forall₂ (fun a p => fmtAuthor a = .ok p) records parts ∧ text = listed parts := by
  simp only [fmtAuthors, ← mapM_eq_ok_iff, ← joinAuthors_eq_listed]
  cases records.mapM fmtAuthor with
  | error e => simp [Except.map]
  | ok parts => simp [Except.map, eq_comm]

theorem exists_names_of_shown {authors : List Author} (h : ∀ a ∈ authors, a.Shown) :
    ∃ names, List.Forall₂ (fun a p => fmtAuthor a = .ok p) (authors.map Author.record) names ∧
      List.Forall₂ IsNameOf authors names := by
  induction authors with
  | nil => exact ⟨[], List.Forall₂.nil, List.Forall₂.nil⟩
  | cons a rest ih =>
      obtain ⟨ha, hrest⟩ := List.forall_mem_cons.mp h
      obtain ⟨p, hp, hname⟩ := fmtAuthor_of_shown ha
      obtain ⟨names, hparts, hnames⟩ := ih hrest
      exact ⟨p :: names, List.Forall₂.cons hp hparts, List.Forall₂.cons hname hnames⟩

theorem parts_against_names {authors : List Author} {names parts : List Str}
    (hparts : List.Forall₂ (fun a p => fmtAuthor a = .ok p) (authors.map Author.record) parts)
    (hnames : List.Forall₂ IsNameOf authors names) :
    List.Forall₂ (fun n p => n ≠ [] ∧ (p = n ∨ p = [])) names parts := by
  induction hnames generalizing parts with
  | nil =>
      obtain rfl := List.forall₂_nil_left_iff.mp hparts
      exact List.Forall₂.nil
  | @cons a n authors names hn _ ih =>
      rw [List.map_cons] at hparts
      obtain ⟨p, rest, hp, hrest, rfl⟩ := List.forall₂_cons_left_iff.mp hparts
      refine List.Forall₂.cons ⟨hn.ne_nil, ?_⟩ (ih hrest)
      rcases fmtAuthor_cases hp with ⟨hshown, hname⟩ | ⟨-, hnil⟩
      · exact Or.inl (isNameOf_unique hshown hn hname)
      · exact Or.inr hnil

theorem shown_of_parts_eq {authors : List Author} {names : List Str}
    (hparts : List.Forall₂ (fun a p => fmtAuthor a = .ok p) (authors.map Author.record) names)
    (hnames : List.Forall₂ IsNameOf authors names) : ∀ a ∈ authors, a.Shown := by
  induction hnames with
  | nil => intro a ha; cases ha
  | @cons a n authors names hn _ ih =>
      rw [List.map_cons] at hparts
      obtain ⟨hp, hrest⟩ := List.forall₂_cons.mp hparts
      refine List.forall_mem_cons.mpr ⟨?_, ih hrest⟩
      rcases fmtAuthor_cases hp with ⟨hshown, -⟩ | ⟨-, hnil⟩
      · exact hshown
      · exact absurd hnil hn.ne_nil

/-- The authors are listed, each by a name, exactly if each is an entity or has both
family and given names. -/
theorem fmtAuthors_iff (authors : List Author) :
    (∃ text, fmtAuthors (authors.map Author.record) = .ok text ∧ Lists authors text) ↔
      ∀ a ∈ authors, a.Shown := by
  constructor
  · intro h
    obtain ⟨text, hfmt, names, hnames, htext⟩ := h
    obtain ⟨parts, hparts, rfl⟩ := (fmtAuthors_eq_ok_iff ..).mp hfmt
    obtain rfl := eq_of_listed_eq (parts_against_names hparts hnames) htext.symm
    exact shown_of_parts_eq hparts hnames
  · intro h
    obtain ⟨names, hparts, hnames⟩ := exists_names_of_shown h
    exact ⟨listed names, (fmtAuthors_eq_ok_iff ..).mpr ⟨names, hparts, rfl⟩, names, hnames, rfl⟩

def plato : Author where
  record := .ofList [(familyNames, "Plato".toList)]
  valid := Or.inl ⟨by decide, by decide, by decide⟩

def iFire : Author where
  record := .ofList [("alias".toList, "iFire".toList)]
  valid := Or.inl ⟨by decide, by decide, by decide⟩

theorem one_name_is_fatal :
    fmtAuthors [plato.record] = .error ⟨givenNames⟩ ∧ fmtAuthors [iFire.record] = .ok [] ∧
      ¬ ∀ authors : List Author,
        ∃ text, fmtAuthors (authors.map Author.record) = .ok text ∧ Lists authors text := by
  have hplato : fmtAuthors [plato.record] = .error ⟨givenNames⟩ := by decide
  refine ⟨hplato, by decide, fun h => ?_⟩
  obtain ⟨text, hfmt, -⟩ := h [plato]
  rw [List.map_singleton, hplato] at hfmt
  cases hfmt

end References
