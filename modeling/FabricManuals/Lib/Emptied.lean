import FabricManuals.Lib.FileTree

/-! # Trees with empty files in place of bad entries

An entry picked out by `bad` becomes an empty file, and what lay below it is gone. -/
set_option autoImplicit false

namespace FileTree

variable (bad : Path → Entry → Bool)

def mended (p : Path) (e : Entry) : Entry := if bad p e then .file [] else e

/-- Below a directory that becomes a file. -/
def Tree.Lost (t : Tree) (p : Path) : Prop :=
  ∃ e ∈ t.entries, e.2 = .dir ∧ bad e.1 e.2 = true ∧ e.1 <+: p ∧ e.1 ≠ p

instance (t : Tree) (p : Path) : Decidable (t.Lost bad p) := inferInstanceAs (Decidable (∃ e ∈ _, _))

theorem Lost.below {t : Tree} {p q : Path} (h : t.Lost bad p) (hpq : p <+: q) : t.Lost bad q := by
  obtain ⟨e, he, hdir, hbad, hpre, hne⟩ := h
  refine ⟨e, he, hdir, hbad, hpre.trans hpq, fun heq => hne ?_⟩
  exact List.IsPrefix.eq_of_length_le hpre (heq ▸ hpq.length_le)

def Tree.stay (t : Tree) : List (Path × Entry) :=
  (t.entries.filter fun e => ¬ t.Lost bad e.1).map fun e => (e.1, mended bad e.1 e.2)

theorem mem_stay {t : Tree} {p : Path} {e : Entry} :
    (p, e) ∈ t.stay bad ↔ ¬ t.Lost bad p ∧ ∃ e', (p, e') ∈ t.entries ∧ mended bad p e' = e := by
  simp only [Tree.stay, List.mem_map, List.mem_filter, decide_eq_true_eq, Prod.mk.injEq]
  constructor
  · rintro ⟨⟨q, e'⟩, ⟨hmem, hlost⟩, rfl, rfl⟩
    exact ⟨hlost, e', hmem, rfl⟩
  · rintro ⟨hlost, e', hmem, rfl⟩
    exact ⟨(p, e'), ⟨hmem, hlost⟩, rfl, rfl⟩

def Tree.emptied (t : Tree) : Tree where
  entries := t.stay bad
  nodup := by
    rw [Tree.stay, List.map_map]
    exact t.nodup.sublist (List.filter_sublist.map Prod.fst)
  plain := by
    rintro ⟨p, e⟩ he
    obtain ⟨-, e', hmem, -⟩ := (mem_stay bad).mp he
    exact t.plain (p, e') hmem
  closed := by
    rintro ⟨p, e⟩ he
    obtain ⟨hlost, e', hmem, -⟩ := (mem_stay bad).mp he
    refine (t.closed _ hmem).imp id fun hparent => (mem_stay bad).mpr ⟨?_, .dir, hparent, ?_⟩
    · exact fun h => hlost (Lost.below bad h (List.dropLast_prefix p))
    · -- a bad parent would have taken the entry with it
      refine if_neg fun hbad => hlost ⟨_, hparent, rfl, hbad, List.dropLast_prefix p, fun heq => ?_⟩
      have hlen : p.dropLast.length = p.length := congrArg List.length heq
      have hpos : 0 < p.length := List.length_pos_iff.mpr (t.plain (p, e') hmem).1
      rw [List.length_dropLast] at hlen
      omega

theorem mem_emptied {t : Tree} {p : Path} {e : Entry} :
    (p, e) ∈ (t.emptied bad).entries ↔
      ¬ t.Lost bad p ∧ ∃ e', (p, e') ∈ t.entries ∧ mended bad p e' = e := mem_stay bad

theorem find?_emptied {t : Tree} {p : Path} (hp : p ≠ []) (hlost : ¬ t.Lost bad p) :
    (t.emptied bad).find? p = (t.find? p).map (mended bad p) := by
  ext e
  rw [find?_eq_some_iff _ hp, mem_emptied, Option.map_eq_some_iff]
  simp only [hlost, not_false_eq_true, true_and, find?_eq_some_iff t hp]

theorem isdir_emptied {t : Tree} {p : Path} (hp : p ≠ []) (hlost : ¬ t.Lost bad p)
    (hbad : bad p .dir = false) : (t.emptied bad).isdir p = t.isdir p := by
  rw [Tree.isdir, Tree.isdir, find?_emptied bad hp hlost]
  cases hfind : t.find? p with
  | none => rfl
  | some e =>
      by_cases he : bad p e = true
      · have hne : e ≠ .dir := by
          rintro rfl
          rw [hbad] at he
          cases he
        simp [mended, he, hne]
      · simp [mended, he]

theorem listdir_emptied {t : Tree} {dir : Path} (hlost : ∀ n, ¬ t.Lost bad (dir ++ [n])) :
    (t.emptied bad).listdir dir = t.listdir dir := by
  have hstay : ∀ l : List (Path × Entry),
      ((l.filter fun e => ¬ t.Lost bad e.1).map fun e => (e.1, mended bad e.1 e.2)).filterMap (childOf dir) =
        l.filterMap (childOf dir) := by
    intro l
    rw [List.filterMap_map, List.filterMap_filter]
    refine List.filterMap_congr fun e _ => ?_
    by_cases he : t.Lost bad e.1
    · rw [if_neg (by simpa using he)]
      cases hchild : childOf dir e with
      | none => rfl
      | some n => exact absurd ((childOf_eq_some dir e n).mp hchild ▸ he) (hlost n)
    · rw [if_pos (by simpa using he)]
      rfl
  exact hstay t.entries

end FileTree
