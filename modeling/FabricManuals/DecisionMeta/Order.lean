import FabricManuals.DecisionMeta.Graph

/-! # Orders of a scan

The scan goes through a set, so every arrangement of its sources can be the order
of a run.  `exists_order` picks one in which a given page is what a lookup of its
title finds and another one is what the graph holds for its key. -/
set_option autoImplicit false

namespace DecisionMeta

open TextFile FileTree OrderedDict PosixPath

/-- A list can be arranged so that what shares a key with `r` comes first and ends
with `r`, and an item with another key comes last. -/
theorem exists_arrangement {α κ : Type} [DecidableEq κ] (key : α → κ) {l : List α} {r q : α}
    (hr : r ∈ l) (hq : q ∈ l) :
    ∃ twins rest, (twins ++ r :: rest).Perm l ∧ (∀ x ∈ twins, key x = key r) ∧
      (∀ x ∈ rest, key x ≠ key r) ∧ (key r ≠ key q → ∃ init, rest = init ++ [q]) := by
  classical
  let near := l.filter fun x => key x = key r
  let far := l.filter fun x => ¬ key x = key r
  have hsplit : (near ++ far).Perm l := by
    simpa [near, far] using List.filter_append_perm (fun x => decide (key x = key r)) l
  have hfront : (near.erase r ++ [r]).Perm near :=
    (List.perm_append_singleton ..).trans (List.perm_cons_erase (by simp [near, hr])).symm
  have hnear : ∀ x ∈ near.erase r, key x = key r := fun x hx => by
    simpa using (List.mem_filter.mp (List.mem_of_mem_erase hx)).2
  have hfar : ∀ x ∈ far, key x ≠ key r := fun x hx => by
    simpa using (List.mem_filter.mp hx).2
  by_cases hkey : key r = key q
  · refine ⟨near.erase r, far, ?_, hnear, hfar, fun h => absurd hkey h⟩
    simpa using (hfront.append_right far).trans hsplit
  · have hmem : q ∈ far := by simpa [far, hq] using fun e => hkey e.symm
    have hback : (far.erase q ++ [q]).Perm far :=
      (List.perm_append_singleton ..).trans (List.perm_cons_erase hmem).symm
    refine ⟨near.erase r, far.erase q ++ [q], ?_, hnear, fun x hx => ?_, fun _ => ⟨_, rfl⟩⟩
    · simpa using (hfront.append hback).trans hsplit
    · exact hfar x (hback.mem_iff.mp hx)

theorem exists_order {S : List Source} {R Q : Page} (hR : R.source ∈ S) (hQ : Q.source ∈ S)
    (hRs : R.Scanned) (hQs : Q.Scanned) (hsame : R.key = Q.key → R = Q) :
    ∃ order : List Source, order.Perm S ∧
      (graphOf order).firstKey (·.title == R.title) = some R.key ∧
      (graphOf order).get? R.key = some R.info ∧ (graphOf order).get? Q.key = some Q.info := by
  obtain ⟨twins, rest, hperm, htwins, hrest, hlast⟩ := exists_arrangement Source.key hR hQ
  have hget : (graphOf (twins ++ R.source :: rest)).get? R.key = some R.info :=
    get?_graphOf_of_last hRs _ _ hrest
  refine ⟨twins ++ R.source :: rest, hperm, firstKey_graphOf_of_first hRs htwins hget, hget, ?_⟩
  by_cases hkey : R.key = Q.key
  · rw [← hsame hkey]; exact hget
  · obtain ⟨init, rfl⟩ := hlast hkey
    rw [← List.cons_append, ← List.append_assoc]
    exact get?_graphOf_of_last hQs _ _ (by simp)

end DecisionMeta
