import FabricManuals.Lib.FirstMatch

/-! # Matches and the text around them

A pattern whose tests do not see past the ends of a text matches the same parts of it
wherever the text stands.  `takes_iff_left` and `takes_iff_right` say this of the two
sides of a separator; what is left are the matches that cover it. -/
set_option autoImplicit false

namespace Backtrack

section Within
variable {α : Type}

def Cursor.within (B A : List α) (c : Cursor α) : Cursor α := ⟨c.before ++ B, c.after ++ A, c.group⟩

/-- No test of the pattern depends on what may surround a text. -/
def Local (fits : List α → List α → Prop) : Regex α → Prop
  | .eps => True
  | .set _ => True
  | .look p => ∀ B A, fits B A → ∀ before after, p (before ++ B) (after ++ A) = p before after
  | .seq r s => Local fits r ∧ Local fits s
  | .alt r s => Local fits r ∧ Local fits s
  | .star _ r => Local fits r
  | .capture r => Local fits r

theorem local_concat_nil (fits : List α → List α → Prop) : Local fits (concat []) ↔ True := Iff.rfl

theorem local_concat_cons (fits : List α → List α → Prop) (r : Regex α) (rest : List (Regex α)) :
    Local fits (concat (r :: rest)) ↔ Local fits r ∧ Local fits (concat rest) := Iff.rfl

theorem local_sets (fits : List α → List α → Prop) (ps : List (α → Bool)) :
    Local fits (concat (ps.map .set)) := by
  induction ps with
  | nil => trivial
  | cons p ps ih => exact ⟨trivial, ih⟩

def Apart (word : α → Bool) (B A : List α) : Prop :=
  B.head?.any word = false ∧ A.head?.any word = false

theorem head?_any_append {word : α → Bool} {B : List α} (hB : B.head?.any word = false) (s : List α) :
    (s ++ B).head?.any word = s.head?.any word := by
  cases s with
  | nil => exact hB
  | cons a s => rfl

theorem local_wordBoundary (word : α → Bool) : Local (Apart word) (wordBoundary word) := by
  intro B A hBA before after
  simp only [head?_any_append hBA.1, head?_any_append hBA.2]

theorem within_inj {B A : List α} {c d : Cursor α} (h : c.within B A = d.within B A) : c = d := by
  obtain ⟨b, a, g⟩ := c
  obtain ⟨b', a', g'⟩ := d
  simp only [Cursor.within, Cursor.mk.injEq, List.append_cancel_right_eq] at h
  obtain ⟨rfl, rfl, rfl⟩ := h
  rfl

/-- On its way from one cursor in the text to another, a pattern stays in the text. -/
theorem exists_within {B A : List α} {c d e : Cursor α} {v w : List α}
    (hv : Advances (c.within B A) e v) (hw : Advances e (d.within B A) w) :
    ∃ e', e = Cursor.within B A e' := by
  refine ⟨⟨v.reverse ++ c.before, w ++ d.after, e.group⟩, ?_⟩
  obtain ⟨before, after, g⟩ := e
  have hbefore := hv.2
  have hafter := hw.1
  simp only [Cursor.within] at hbefore hafter
  simp only [Cursor.within, hbefore, hafter, List.append_assoc]

theorem Advances.within {c d : Cursor α} {w : List α} (h : Advances c d w) (B A : List α) :
    Advances (c.within B A) (d.within B A) w := by
  refine ⟨?_, ?_⟩
  · simp only [Cursor.within, h.1, List.append_assoc]
  · simp only [Cursor.within, h.2, List.append_assoc]

theorem consumedBy_within {r : Regex α} {c e : Cursor α} (he : e ∈ r.run c) (B A : List α) :
    (c.within B A).consumedBy (e.within B A) = c.consumedBy e := by
  obtain ⟨w, hw⟩ := run_advances r c e he
  rw [(hw.within B A).consumedBy, hw.consumedBy]

theorem rounds_within {r : Regex α} {B A : List α}
    (hround : ∀ c e : Cursor α, Round r (c.within B A) (e.within B A) ↔ Round r c e) (c d : Cursor α) :
    Relation.ReflTransGen (Round r) (c.within B A) (d.within B A) ↔
      Relation.ReflTransGen (Round r) c d := by
  constructor
  · have main : ∀ x, Relation.ReflTransGen (Round r) x (d.within B A) →
        ∀ c : Cursor α, x = c.within B A → Relation.ReflTransGen (Round r) c d := by
      intro x h
      induction h using Relation.ReflTransGen.head_induction_on with
      | refl => intro c hc; rw [within_inj hc]
      | head hfirst hrest ih =>
          intro c hc
          subst hc
          obtain ⟨v, hv⟩ := run_advances r _ _ hfirst.1
          obtain ⟨w, hw⟩ := run_advances _ _ _ ((mem_run_star true ..).mpr hrest)
          obtain ⟨e, rfl⟩ := exists_within hv hw
          exact .head ((hround c e).mp hfirst) (ih e rfl)
    intro h
    exact main _ h c rfl
  · intro h
    induction h with
    | refl => exact .refl
    | tail _ hlast ih => exact ih.tail ((hround _ _).mpr hlast)

/-- A local pattern does the same in a text and in a larger one around it. -/
theorem mem_run_within {fits : List α → List α → Prop} {B A : List α} (hfits : fits B A) :
    ∀ (r : Regex α), Local fits r → ∀ c d : Cursor α,
      d.within B A ∈ r.run (c.within B A) ↔ d ∈ r.run c := by
  intro r
  induction r with
  | eps =>
      intro _ c d
      rw [run_eps, run_eps, List.mem_singleton, List.mem_singleton]
      exact ⟨within_inj, fun h => h ▸ rfl⟩
  | set p =>
      intro _ c d
      rw [mem_run_set, mem_run_set]
      refine exists_congr fun a => and_congr_right fun _ => ?_
      simp only [Cursor.within, ← List.cons_append, List.append_cancel_right_eq]
  | look p =>
      intro hp c d
      rw [mem_run_look, mem_run_look]
      have hsame : p (c.within B A).before (c.within B A).after = p c.before c.after :=
        hp B A hfits c.before c.after
      rw [hsame]
      exact and_congr_right fun _ => ⟨within_inj, fun h => h ▸ rfl⟩
  | seq r s ihr ihs =>
      intro hlocal c d
      rw [run_seq, run_seq, List.mem_flatMap, List.mem_flatMap]
      constructor
      · intro h
        obtain ⟨e, he, hd⟩ := h
        obtain ⟨v, hv⟩ := run_advances r _ e he
        obtain ⟨w, hw⟩ := run_advances s _ _ hd
        obtain ⟨e, rfl⟩ := exists_within hv hw
        exact ⟨e, (ihr hlocal.1 c e).mp he, (ihs hlocal.2 e d).mp hd⟩
      · intro h
        obtain ⟨e, he, hd⟩ := h
        exact ⟨_, (ihr hlocal.1 c e).mpr he, (ihs hlocal.2 e d).mpr hd⟩
  | alt r s ihr ihs =>
      intro hlocal c d
      rw [run_alt, run_alt, List.mem_append, List.mem_append]
      exact or_congr (ihr hlocal.1 c d) (ihs hlocal.2 c d)
  | star greedy r ih =>
      intro hlocal c d
      have hround : ∀ c e : Cursor α, Round r (c.within B A) (e.within B A) ↔ Round r c e := by
        intro c e
        refine and_congr (ih hlocal c e) ?_
        simp only [Cursor.within, List.length_append, Nat.add_lt_add_iff_right]
      rw [mem_run_star, mem_run_star]
      exact rounds_within hround c d
  | capture r ih =>
      intro hlocal c d
      rw [mem_run_capture, mem_run_capture]
      constructor
      · intro h
        obtain ⟨e, he, hd⟩ := h
        obtain ⟨v, hv⟩ := run_advances r _ e he
        have hw : Advances e (d.within B A) [] := by
          rw [hd]
          exact ⟨rfl, rfl⟩
        obtain ⟨e, rfl⟩ := exists_within hv hw
        have he' := (ih hlocal c e).mp he
        refine ⟨e, he', within_inj (hd.trans ?_)⟩
        rw [consumedBy_within he']
        rfl
      · intro h
        obtain ⟨e, he, rfl⟩ := h
        refine ⟨e.within B A, (ih hlocal c e).mpr he, ?_⟩
        rw [consumedBy_within he]
        rfl

def Takes (r : Regex α) (p w q : List α) : Prop :=
  ∃ g, ⟨w.reverse ++ p.reverse, q, g⟩ ∈ r.run ⟨p.reverse, w ++ q, none⟩

theorem takes_of_mem {r : Regex α} {p s : List α} {d : Cursor α}
    (h : d ∈ r.run ⟨p.reverse, s, none⟩) : ∃ w, s = w ++ d.after ∧ Takes r p w d.after := by
  obtain ⟨w, hafter, hbefore⟩ := run_advances r _ d h
  refine ⟨w, hafter, d.group, ?_⟩
  rw [← hbefore, ← hafter]
  exact h

theorem searchFrom_isSome {r : Regex α} : ∀ (p before s : List α),
    (first r (p.reverse ++ before) s).isSome = true → (searchFrom r before (p ++ s)).isSome = true := by
  intro p
  induction p with
  | nil =>
      intro before s h
      rw [List.reverse_nil, List.nil_append] at h
      obtain ⟨d, hd⟩ := Option.isSome_iff_exists.mp h
      rw [List.nil_append, searchFrom_first hd]
      rfl
  | cons a p ih =>
      intro before s h
      rw [List.cons_append, searchFrom]
      split
      · rfl
      · refine ih (a :: before) s ?_
        rwa [List.reverse_cons, List.append_assoc, List.singleton_append] at h

theorem search_isSome_iff_exists (r : Regex α) (s : List α) :
    (search r s).isSome = true ↔ ∃ p post, s = p ++ post ∧ ∃ d, d ∈ r.run ⟨p.reverse, post, none⟩ := by
  constructor
  · intro h
    obtain ⟨d, hd⟩ := Option.isSome_iff_exists.mp h
    obtain ⟨p, post, rfl, hfirst⟩ := searchFrom_sound s [] hd
    rw [List.append_nil] at hfirst
    exact ⟨p, post, rfl, d, first_mem hfirst⟩
  · intro h
    obtain ⟨p, post, rfl, hrun⟩ := h
    refine searchFrom_isSome p [] post ?_
    rwa [List.append_nil, first_isSome_iff]

theorem search_isSome_iff (r : Regex α) (s : List α) :
    (search r s).isSome = true ↔ ∃ p w q, s = p ++ (w ++ q) ∧ Takes r p w q := by
  rw [search_isSome_iff_exists]
  constructor
  · intro h
    obtain ⟨p, post, rfl, d, hd⟩ := h
    obtain ⟨w, rfl, htakes⟩ := takes_of_mem hd
    exact ⟨p, w, d.after, rfl, htakes⟩
  · intro h
    obtain ⟨p, w, q, rfl, g, hrun⟩ := h
    exact ⟨p, w ++ q, rfl, _, hrun⟩

variable {fits : List α → List α → Prop} {r : Regex α} {sep : α} {l l' p w q : List α}

theorem takes_iff_left (hlocal : Local fits r) (hfits : fits [] (sep :: l')) :
    Takes r p w (q ++ sep :: l') ↔ Takes r p w q := by
  unfold Takes
  refine exists_congr fun g => ?_
  have hwithin := mem_run_within hfits r hlocal ⟨p.reverse, w ++ q, none⟩ ⟨w.reverse ++ p.reverse, q, g⟩
  simpa only [Cursor.within, List.append_nil, List.append_assoc] using hwithin

theorem takes_iff_right (hlocal : Local fits r) (hfits : fits (sep :: l.reverse) []) :
    Takes r (l ++ sep :: p) w q ↔ Takes r p w q := by
  unfold Takes
  refine exists_congr fun g => ?_
  have hwithin := mem_run_within hfits r hlocal ⟨p.reverse, w ++ q, none⟩ ⟨w.reverse ++ p.reverse, q, g⟩
  simpa only [Cursor.within, List.append_nil, List.append_assoc, List.reverse_append,
    List.reverse_cons, List.singleton_append] using hwithin

/-- A part of `l ++ sep :: l'` lies in front of the separator, behind it, or covers it. -/
theorem three_sides (h : l ++ sep :: l' = p ++ (w ++ q)) :
    (∃ q', q = q' ++ sep :: l' ∧ l = p ++ (w ++ q')) ∨
      (∃ p', p = l ++ sep :: p' ∧ l' = p' ++ (w ++ q)) ∨
      (p.length ≤ l.length ∧ l.length < p.length + w.length) := by
  by_cases hfront : p.length + w.length ≤ l.length
  · left
    have hpre : p ++ w <+: l ++ sep :: l' := ⟨q, by rw [h, List.append_assoc]⟩
    obtain ⟨q', rfl⟩ := List.prefix_of_prefix_length_le hpre (List.prefix_append l (sep :: l'))
      (by rwa [List.length_append])
    refine ⟨q', ?_, List.append_assoc ..⟩
    rw [List.append_assoc, List.append_assoc, List.append_cancel_left_eq,
      List.append_cancel_left_eq] at h
    exact h.symm
  · by_cases hback : l.length < p.length
    · right; left
      have hpre : p <+: l ++ sep :: l' := ⟨w ++ q, h.symm⟩
      have hsep : l ++ [sep] <+: l ++ sep :: l' := ⟨l', by rw [List.append_assoc]; rfl⟩
      obtain ⟨p', rfl⟩ := List.prefix_of_prefix_length_le hsep hpre
        (by rwa [List.length_append, List.length_singleton])
      refine ⟨p', by rw [List.append_assoc]; rfl, ?_⟩
      rw [List.append_assoc, List.append_assoc, List.append_cancel_left_eq, List.singleton_append] at h
      exact (List.cons.inj h).2
    · right; right
      omega

end Within
end Backtrack
