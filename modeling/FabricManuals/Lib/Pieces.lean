import FabricManuals.Lib.Replace

/-! # Replacing as splitting and joining

What stands between the occurrences of a text does not depend on what is put in their
place.  A replacement that the text cannot reach into makes no new occurrence. -/
set_option autoImplicit false

namespace Backtrack

open Lines

section Joining
variable {α : Type} {v repl : List α}

theorem prefix_intercalate (w p : List α) (rest : List (List α)) : p <+: w.intercalate (p :: rest) := by
  cases rest with
  | nil => rw [List.intercalate_singleton]
  | cons q rest =>
      rw [List.intercalate_cons_cons, List.append_assoc]
      exact List.prefix_append _ _

theorem intercalate_cons_head (w : List α) (a : α) (p : List α) (rest : List (List α)) :
    w.intercalate ((a :: p) :: rest) = a :: w.intercalate (p :: rest) := by
  cases rest with
  | nil => rw [List.intercalate_singleton, List.intercalate_singleton]
  | cons q rest =>
      rw [List.intercalate_cons_cons, List.intercalate_cons_cons]
      rfl

theorem infix_intercalate (w : List α) {pieces : List (List α)} {q : List α} (hq : q ∈ pieces) :
    q <:+: w.intercalate pieces := by
  induction pieces with
  | nil => cases hq
  | cons p rest ih =>
      rcases List.mem_cons.mp hq with rfl | hq
      · exact (prefix_intercalate w q rest).isInfix
      · obtain ⟨p', rest', rfl⟩ := List.exists_cons_of_ne_nil (List.ne_nil_of_mem hq)
        rw [List.intercalate_cons_cons]
        exact (ih hq).trans (List.suffix_append _ _).isInfix

/-- No occurrence of `v` reaches into `repl`, whatever stands around it. -/
def Severs (v repl : List α) : Prop := ∀ x y, v <:+: x ++ (repl ++ y) → v <:+: x ∨ v <:+: y

theorem severs_newline {nl : α} (hnl : nl ∉ v) : Severs v [nl] := fun _ _ h => infix_append_cons hnl h

theorem severs_of_mem {a : α} (ha : a ∈ repl) (hav : a ∉ v) {b c : α} (hb : v.head? = some b)
    (hbr : b ∉ repl) (hc : v.getLast? = some c) (hcr : c ∉ repl) : Severs v repl := by
  obtain ⟨r₁, r₂, rfl⟩ := List.append_of_mem ha
  intro x y h
  have hcut : v <:+: (x ++ r₁) ++ a :: (r₂ ++ y) := by simpa using h
  have houtside : ∀ r : List α, r ⊆ r₁ ++ a :: r₂ → ¬ v <:+: r := by
    intro r hr hpart
    exact hbr (hr (hpart.subset (List.mem_of_mem_head? hb)))
  rcases infix_append_cons hav hcut with h | h
  · rcases List.infix_append_iff.mp h with h | h | ⟨u, u', rfl, hu, hu'⟩
    · exact Or.inl h
    · exact absurd h (houtside r₁ (List.subset_append_left _ _))
    · rcases List.eq_nil_or_concat u' with rfl | ⟨u₀, z, rfl⟩
      · exact Or.inl (by simpa using hu.isInfix)
      · obtain rfl : z = c := by
          rw [List.concat_eq_append, ← List.append_assoc, List.getLast?_concat] at hc
          exact Option.some.inj hc
        have hmem : z ∈ r₁ := hu'.subset (by simp)
        exact absurd (List.mem_append_left _ hmem) hcr
  · rcases List.infix_append_iff.mp h with h | h | ⟨u, u', rfl, hu, hu'⟩
    · exact absurd h (houtside r₂ fun z hz => by simp [hz])
    · exact Or.inr h
    · cases u with
      | nil => exact Or.inr (by simpa using hu'.isInfix)
      | cons z u =>
          obtain rfl := Option.some.inj hb
          have hmem : z ∈ r₂ := hu.subset (List.mem_cons_self ..)
          exact absurd (List.mem_append_right _ (List.mem_cons_of_mem _ hmem)) hbr

theorem not_infix_intercalate (hv : v ≠ []) (hsevers : Severs v repl) {pieces : List (List α)}
    (h : ∀ p ∈ pieces, ¬ v <:+: p) : ¬ v <:+: repl.intercalate pieces := by
  induction pieces with
  | nil => exact fun hpart => hv (List.infix_nil.mp hpart)
  | cons p rest ih =>
      obtain ⟨hp, hrest⟩ := List.forall_mem_cons.mp h
      cases rest with
      | nil => rwa [List.intercalate_singleton]
      | cons q rest =>
          rw [List.intercalate_cons_cons, List.append_assoc]
          intro hpart
          rcases hsevers _ _ hpart with hin | hin
          · exact hp hin
          · exact ih hrest hin

end Joining

section Pieces
variable {α : Type} [DecidableEq α] {v w repl : List α}

/-- A text that is found does not depend on what stands before, and behind it the rest of
its letters is dropped. -/
theorem subFrom_lit_eq_sub (hne : w ≠ []) (repl : List α) :
    ∀ (s : List α) (skip : Nat) (before : List α), skip ≤ s.length →
      subFrom (lit w) repl skip before s = sub (lit w) repl (s.drop skip) := by
  intro s
  induction s with
  | nil =>
      intro skip before hskip
      obtain rfl := Nat.le_zero.mp hskip
      rw [sub, List.drop_nil, subFrom_lit_nil hne, subFrom_lit_nil hne]
  | cons a rest ih =>
      intro skip before hskip
      cases skip with
      | succ skip => exact ih skip (a :: before) (Nat.le_of_succ_le_succ hskip)
      | zero =>
          rw [List.drop_zero, sub, subFrom_lit_cons hne, subFrom_lit_cons hne]
          by_cases hpre : w <+: a :: rest
          · have hlen : w.length - 1 ≤ rest.length := by
              have hle := hpre.length_le
              rw [List.length_cons] at hle
              omega
            rw [if_pos hpre, if_pos hpre, ih _ _ hlen, ih _ _ hlen]
          · rw [if_neg hpre, if_neg hpre, ih 0 _ (Nat.zero_le _), ih 0 _ (Nat.zero_le _)]

theorem sub_lit_nil (hne : w ≠ []) : sub (lit w) repl [] = [] := subFrom_lit_nil hne repl []

theorem sub_lit_append (hne : w ≠ []) (rest : List α) :
    sub (lit w) repl (w ++ rest) = repl ++ sub (lit w) repl rest := by
  obtain ⟨a, w', rfl⟩ := List.exists_cons_of_ne_nil hne
  have hpre : a :: w' <+: a :: (w' ++ rest) := List.prefix_append (a :: w') rest
  have hlen : (a :: w').length - 1 = w'.length := rfl
  rw [List.cons_append, sub, subFrom_lit_cons hne, if_pos hpre, hlen,
    subFrom_lit_eq_sub hne _ _ _ _ (by simp), List.drop_left]

theorem sub_lit_cons (hne : w ≠ []) {a : α} {rest : List α} (hpre : ¬ w <+: a :: rest) :
    sub (lit w) repl (a :: rest) = a :: sub (lit w) repl rest := by
  rw [sub, subFrom_lit_cons hne, if_neg hpre, subFrom_lit_eq_sub hne _ _ _ _ (Nat.zero_le _), List.drop_zero]

theorem sub_lit_append_left {b : α} (hb : w.head? = some b) {x : List α} (hx : b ∉ x) (s : List α) :
    sub (lit w) repl (x ++ s) = x ++ sub (lit w) repl s := by
  have hne : w ≠ [] := by
    rintro rfl
    cases hb
  induction x with
  | nil => rfl
  | cons a x ih =>
      rw [List.mem_cons, not_or] at hx
      have hpre : ¬ w <+: a :: (x ++ s) := by
        rintro ⟨rest, hrest⟩
        have hhead := congrArg List.head? hrest
        rw [List.head?_append_of_ne_nil _ hne, hb] at hhead
        exact hx.1 (Option.some.inj hhead)
      rw [List.cons_append, sub_lit_cons hne hpre, ih hx.2, List.cons_append]

/-- The text is cut where `w` stands, once for every replacement. -/
theorem exists_pieces (hne : w ≠ []) (s : List α) :
    ∃ p rest, w.intercalate (p :: rest) = s ∧ (∀ q ∈ p :: rest, ¬ w <:+: q) ∧
      ∀ repl, sub (lit w) repl s = repl.intercalate (p :: rest) := by
  have hnil : ¬ w <:+: ([] : List α) := fun h => hne (List.infix_nil.mp h)
  generalize hn : s.length = n
  induction n using Nat.strong_induction_on generalizing s with
  | _ n ih =>
    subst hn
    cases s with
    | nil =>
        refine ⟨[], [], List.intercalate_singleton, by simpa using hnil, fun repl => ?_⟩
        rw [sub_lit_nil hne, List.intercalate_singleton]
    | cons a tail =>
        by_cases hpre : w <+: a :: tail
        · obtain ⟨after, hafter⟩ := hpre
          have hlt : after.length < (a :: tail).length := by
            rw [← hafter, List.length_append]
            have := List.length_pos_iff.mpr hne
            omega
          obtain ⟨p, rest, hjoin, hfree, hsub⟩ := ih _ hlt after rfl
          refine ⟨[], p :: rest, ?_, List.forall_mem_cons.mpr ⟨hnil, hfree⟩, fun repl => ?_⟩
          · rw [List.intercalate_cons_cons, hjoin, List.nil_append, hafter]
          · rw [← hafter, sub_lit_append hne, hsub, List.intercalate_cons_cons, List.nil_append]
        · obtain ⟨p, rest, hjoin, hfree, hsub⟩ := ih _ (Nat.lt_succ_self _) tail rfl
          obtain ⟨hp, hrest⟩ := List.forall_mem_cons.mp hfree
          refine ⟨a :: p, rest, ?_, List.forall_mem_cons.mpr ⟨?_, hrest⟩, fun repl => ?_⟩
          · rw [intercalate_cons_head, hjoin]
          · intro hpart
            rcases List.infix_cons_iff.mp hpart with hopens | hinside
            · have hmore : p <+: tail := hjoin ▸ prefix_intercalate w p rest
              exact hpre (hopens.trans (List.cons_prefix_cons.mpr ⟨rfl, hmore⟩))
            · exact hp hinside
          · rw [sub_lit_cons hne hpre, hsub, intercalate_cons_head]

theorem sub_lit_of_not_infix (hne : w ≠ []) (repl : List α) {s : List α} (h : ¬ w <:+: s) :
    sub (lit w) repl s = s := by
  induction s with
  | nil => exact sub_lit_nil hne
  | cons a rest ih =>
      have hrest : rest <:+: a :: rest := (List.suffix_cons a rest).isInfix
      rw [sub_lit_cons hne fun hpre => h hpre.isInfix, ih fun hpart => h (hpart.trans hrest)]

theorem not_infix_sub_lit_self (hne : w ≠ []) (hsevers : Severs w repl) (s : List α) :
    ¬ w <:+: sub (lit w) repl s := by
  obtain ⟨p, rest, -, hfree, hsub⟩ := exists_pieces hne s
  rw [hsub]
  exact not_infix_intercalate hne hsevers hfree

/-- A replacement brings no occurrence about. -/
theorem not_infix_sub_lit (hne : w ≠ []) (hv : v ≠ []) (hsevers : Severs v repl) {s : List α}
    (h : ¬ v <:+: s) : ¬ v <:+: sub (lit w) repl s := by
  obtain ⟨p, rest, hjoin, -, hsub⟩ := exists_pieces hne s
  rw [hsub]
  refine not_infix_intercalate hv hsevers fun q hq hpart => h (hpart.trans ?_)
  exact hjoin ▸ infix_intercalate w hq

theorem not_infix_of_lines {nl : α} (hv : v ≠ []) (hnl : nl ∉ v) {s : List α}
    (h : ∀ l ∈ s.splitOn nl, ¬ v <:+: l) : ¬ v <:+: s := by
  have hjoin : [nl].intercalate (s.splitOn nl) = s := List.intercalate_splitOn nl
  rw [← hjoin]
  exact not_infix_intercalate hv (severs_newline hnl) h

end Pieces

end Backtrack
