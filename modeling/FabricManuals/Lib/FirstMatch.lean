import FabricManuals.Lib.Backtrack
import FabricManuals.Lib.Lines

/-! # Which match comes first

A matcher reports the head of the list of ways.  A greedy repetition tries the
longest run first and a lazy one the shortest, so the head is found from the left:
the first way of a part whose continuation does not fail. -/
set_option autoImplicit false

namespace Backtrack

section Order
variable {α : Type}

theorem head?_flatMap_of_head {β : Type} {l : List α} {x : α} {f : α → List β} (hl : l.head? = some x)
    (hf : f x ≠ []) : (l.flatMap f).head? = (f x).head? := by
  obtain ⟨rest, rfl⟩ : ∃ rest, l = x :: rest := by
    cases l with
    | nil => cases hl
    | cons y rest => exact ⟨rest, by rw [Option.some.inj hl]⟩
  rw [List.flatMap_cons, List.head?_append]
  cases hfx : f x with
  | nil => exact absurd hfx hf
  | cons y rest' => rfl

/-! ## One more round -/

theorem run_star_set_cons (greedy : Bool) (p : α → Bool) (before : List α) (a : α) (rest : List α)
    (g : Option (List α)) :
    (Regex.star greedy (.set p)).run ⟨before, a :: rest, g⟩ =
      if p a then
        if greedy then (Regex.star greedy (.set p)).run ⟨a :: before, rest, g⟩ ++ [⟨before, a :: rest, g⟩]
        else ⟨before, a :: rest, g⟩ :: (Regex.star greedy (.set p)).run ⟨a :: before, rest, g⟩
      else [⟨before, a :: rest, g⟩] := by
  by_cases hp : p a = true
  · have hstep : (Regex.set p).run ⟨before, a :: rest, g⟩ = [⟨a :: before, rest, g⟩] := by
      simp [run_set, hp]
    cases greedy with
    | false => simp [Regex.run, iterate, hp]
    | true => simp [Regex.run, iterate, hp]
  · cases greedy with
    | false => simp [Regex.run, iterate, hp]
    | true => simp [Regex.run, iterate, hp]

/-- A greedy run goes as far as its characters do. -/
theorem head?_star_greedy {p : α → Bool} : ∀ (w before rest : List α) (g : Option (List α)),
    (∀ a ∈ w, p a = true) → rest.head?.any p = false →
      ((Regex.star true (.set p)).run ⟨before, w ++ rest, g⟩).head? =
        some ⟨w.reverse ++ before, rest, g⟩ := by
  intro w
  induction w with
  | nil =>
      intro before rest g _ hstop
      cases rest with
      | nil => rfl
      | cons a rest =>
          have ha : p a = false := by simpa using hstop
          rw [List.nil_append, run_star_set_cons, ha]
          rfl
  | cons a w ih =>
      intro before rest g hw hstop
      obtain ⟨ha, hw⟩ := List.forall_mem_cons.mp hw
      rw [List.cons_append, run_star_set_cons, if_pos ha, if_pos rfl, List.head?_append,
        ih (a :: before) rest g hw hstop]
      simp

theorem head?_run_star_set (p : α → Bool) (after before : List α) (g : Option (List α)) :
    ((Regex.star true (.set p)).run ⟨before, after, g⟩).head? =
      some ⟨(after.takeWhile p).reverse ++ before, after.dropWhile p, g⟩ := by
  have hstop : (after.dropWhile p).head?.any p = false := by
    have hnot := List.head?_dropWhile_not p after
    cases hhead : (after.dropWhile p).head? with
    | none => rfl
    | some a => rw [hhead] at hnot; exact hnot
  have hgreedy := head?_star_greedy (after.takeWhile p) before (after.dropWhile p) g
    (fun a ha => List.mem_takeWhile_imp ha) hstop
  rwa [List.takeWhile_append_dropWhile] at hgreedy

/-- A lazy run stops at the first place from which the rest of the pattern goes on. -/
theorem head?_star_lazy {β : Type} {p : α → Bool} {next : Cursor α → List β} :
    ∀ (w before rest : List α) (g : Option (List α)), (∀ a ∈ w, p a = true) →
      (∀ v x, w = v ++ x → x ≠ [] → next ⟨v.reverse ++ before, x ++ rest, g⟩ = []) →
      next ⟨w.reverse ++ before, rest, g⟩ ≠ [] →
        (((Regex.star false (.set p)).run ⟨before, w ++ rest, g⟩).flatMap next).head? =
          (next ⟨w.reverse ++ before, rest, g⟩).head? := by
  intro w
  induction w with
  | nil =>
      intro before rest g _ _ hnext
      apply head?_flatMap_of_head _ hnext
      cases rest with
      | nil => rfl
      | cons a rest =>
          rw [List.nil_append, run_star_set_cons]
          split
          · rfl
          · rfl
  | cons a w ih =>
      intro before rest g hw hstuck hnext
      obtain ⟨ha, hw⟩ := List.forall_mem_cons.mp hw
      have hhere : next ⟨before, a :: (w ++ rest), g⟩ = [] := hstuck [] (a :: w) rfl (by simp)
      rw [List.reverse_cons, List.append_assoc, List.singleton_append] at hnext ⊢
      rw [List.cons_append, run_star_set_cons, if_pos ha, if_neg (by simp), List.flatMap_cons, hhere,
        List.nil_append]
      refine ih (a :: before) rest g hw ?_ hnext
      intro v x hsplit hx
      have := hstuck (a :: v) x (by rw [hsplit]; rfl) hx
      simpa using this

theorem run_lit_append [BEq α] [LawfulBEq α] : ∀ (w before rest : List α) (g : Option (List α)),
    (lit w).run ⟨before, w ++ rest, g⟩ = [⟨w.reverse ++ before, rest, g⟩] := by
  intro w
  induction w with
  | nil => intro before rest g; rfl
  | cons a w ih =>
      intro before rest g
      have hstep : (lit (a :: w)).run ⟨before, a :: (w ++ rest), g⟩ =
          ((Regex.set (· == a)).run ⟨before, a :: (w ++ rest), g⟩).flatMap (lit w).run := rfl
      have hset : (Regex.set (· == a)).run ⟨before, a :: (w ++ rest), g⟩ =
          [⟨a :: before, w ++ rest, g⟩] := by
        simp [run_set]
      rw [List.cons_append, hstep, hset, List.flatMap_singleton, ih, List.reverse_cons,
        List.append_assoc, List.singleton_append]

theorem searchFrom_skip {r : Regex α} : ∀ (u before rest : List α),
    (∀ v x, u = v ++ x → x ≠ [] → first r (v.reverse ++ before) (x ++ rest) = none) →
      searchFrom r before (u ++ rest) = searchFrom r (u.reverse ++ before) rest := by
  intro u
  induction u with
  | nil => intro before rest _; rfl
  | cons a u ih =>
      intro before rest h
      have hhere : first r before (a :: (u ++ rest)) = none := h [] (a :: u) rfl (by simp)
      rw [List.cons_append, searchFrom, hhere, List.reverse_cons, List.append_assoc,
        List.singleton_append]
      refine ih (a :: before) rest ?_
      intro v x hsplit hx
      have := h (a :: v) x (by rw [hsplit]; rfl) hx
      simpa using this

theorem searchFrom_first {r : Regex α} {before after : List α} {d : Cursor α}
    (h : first r before after = some d) : searchFrom r before after = some d := by
  cases after with
  | nil => exact h
  | cons a rest => rw [searchFrom, h]

theorem searchFrom_sound {r : Regex α} {d : Cursor α} : ∀ (after before : List α),
    searchFrom r before after = some d →
      ∃ pre post, after = pre ++ post ∧ first r (pre.reverse ++ before) post = some d := by
  intro after
  induction after with
  | nil => intro before h; exact ⟨[], [], rfl, h⟩
  | cons a rest ih =>
      intro before h
      rw [searchFrom] at h
      split at h
      · next e he => exact ⟨[], a :: rest, rfl, by rw [← h]; exact he⟩
      · obtain ⟨pre, post, rfl, hd⟩ := ih (a :: before) h
        exact ⟨a :: pre, post, rfl, by simpa using hd⟩

def Spells (r : Regex α) (p : α → Bool) : Prop :=
  ∀ before after d, first r before after = some d → ∀ a ∈ (Hit.of after d).text, p a = true

/-- No hit reaches over a character of another kind, so behind it an iteration starts
afresh. -/
theorem Spells.iterFrom_barrier {r : Regex α} {p : α → Bool} (h : Spells r p) {c : α}
    (hc : p c = false) {post : List α} {hit : Hit α} : ∀ (pre before : List α) (skip : Nat),
      skip ≤ pre.length → hit ∈ iterFrom r 0 (c :: (pre.reverse ++ before)) post →
        hit ∈ iterFrom r skip before (pre ++ c :: post) := by
  -- what a hit at `a` covers ends in front of the barrier
  have hfits : ∀ (pre before : List α) d, first r before (pre ++ c :: post) = some d →
      (Hit.of (pre ++ c :: post) d).text.length ≤ pre.length := by
    intro pre before d hd
    obtain ⟨w, hw, htext⟩ := hit_of_first hd
    have hspell := h _ _ d hd
    rw [htext] at hspell ⊢
    have hsplit : pre ++ c :: post = w ++ d.after := hw.1
    rcases List.append_eq_append_iff.mp hsplit with ⟨t, rfl, ht⟩ | ⟨t, rfl, -⟩
    · cases t with
      | nil => simp
      | cons x t =>
          obtain ⟨rfl, -⟩ := List.cons.inj ht
          rw [hspell c (by simp)] at hc
          cases hc
    · rw [List.length_append]
      omega
  intro pre
  induction pre with
  | nil =>
      intro before skip hskip hmem
      obtain rfl : skip = 0 := by simpa using hskip
      rw [List.nil_append, iterFrom]
      split
      · next d hd =>
          have hempty := hfits [] before d hd
          rw [List.nil_append, List.length_nil] at hempty
          refine List.mem_cons_of_mem _ ?_
          rwa [show (Hit.of (c :: post) d).text.length - 1 = 0 by omega]
      · exact hmem
  | cons a pre ih =>
      intro before skip hskip hmem
      rw [List.reverse_cons, List.append_assoc, List.singleton_append] at hmem
      rw [List.length_cons] at hskip
      cases skip with
      | zero =>
          rw [List.cons_append, iterFrom]
          split
          · next d hd =>
              have hshort := hfits (a :: pre) before d hd
              rw [List.cons_append, List.length_cons] at hshort
              exact List.mem_cons_of_mem _ (ih (a :: before) _ (by omega) hmem)
          · exact ih (a :: before) 0 (Nat.zero_le _) hmem
      | succ skip =>
          rw [List.cons_append, iterFrom]
          exact ih (a :: before) skip (by omega) hmem

theorem Spells.mem_finditer {r : Regex α} {p : α → Bool} (h : Spells r p) {c : α} (hc : p c = false)
    (pre : List α) {post : List α} {d : Cursor α}
    (hd : first r (c :: pre.reverse) post = some d) : Hit.of post d ∈ finditer r (pre ++ c :: post) := by
  refine h.iterFrom_barrier hc pre [] 0 (Nat.zero_le _) ?_
  rw [List.append_nil]
  cases post with
  | nil => simp [iterFrom, hd]
  | cons a rest =>
      rw [iterFrom, hd]
      exact List.mem_cons_self ..

end Order

/-! ## Patterns at the start of a line -/

section Heads
variable {α : Type}

/-- Every match of `r` stands at the start of a line and begins with `w`. -/
def Heads (r : Regex α) (newline : α) (w : List α) : Prop :=
  ∀ before after d, first r before after = some d →
    (before = [] ∨ before.head? = some newline) ∧ w <+: after

theorem heads_of_bol [BEq α] [LawfulBEq α] (newline : α) (w : List α) (rest : List (Regex α)) :
    Heads (concat (bol newline :: lit w :: rest)) newline w := by
  intro before after d hd
  have hmem := first_mem hd
  simp only [run_concat_cons, List.mem_flatMap, bol, mem_run_look, mem_run_lit] at hmem
  obtain ⟨_, ⟨hbol, rfl⟩, e, ⟨hw, -⟩, -⟩ := hmem
  refine ⟨?_, e.after, hw.1.symm⟩
  simpa using hbol

theorem Heads.skip_line {r : Regex α} {newline : α} {w : List α} (h : Heads r newline w)
    (hw : newline ∉ w) {line : List α} (hline : newline ∉ line) (hno : ¬ w <+: line)
    (before : List α) {rest : List α} (hrest : rest = [] ∨ rest.head? = some newline) :
    searchFrom r before (line ++ rest) = searchFrom r (line.reverse ++ before) rest := by
  apply searchFrom_skip
  intro v x hsplit hx
  cases hfirst : first r (v.reverse ++ before) (x ++ rest) with
  | none => rfl
  | some d =>
      exfalso
      obtain ⟨hstart, hpre⟩ := h _ _ d hfirst
      cases v with
      | nil =>
          -- at the start of the line the opening has to fit in front of its end
          rw [List.nil_append] at hsplit
          subst hsplit
          rcases hrest with rfl | hrest
          · rw [List.append_nil] at hpre
            exact hno hpre
          · obtain ⟨y, more, rfl⟩ : ∃ y more, rest = y :: more := by
              cases rest with
              | nil => cases hrest
              | cons y more => exact ⟨y, more, rfl⟩
            obtain rfl := Option.some.inj hrest
            exact hno (Lines.prefix_append_cons hw hpre)
      | cons c v =>
          rcases hstart with hstart | hstart
          · simp at hstart
          · have hlast : (c :: v).reverse.head? = some newline := by
              rw [List.head?_append_of_ne_nil _ (by simp)] at hstart
              exact hstart
            have hmem : newline ∈ c :: v := List.mem_reverse.mp (List.mem_of_mem_head? hlast)
            exact hline (by rw [hsplit]; exact List.mem_append_left _ hmem)

theorem Heads.skip_newline {r : Regex α} {newline : α} {w : List α} (h : Heads r newline w)
    (hw : newline ∉ w) (hne : w ≠ []) (before rest : List α) :
    searchFrom r before (newline :: rest) = searchFrom r (newline :: before) rest := by
  refine searchFrom_skip [newline] before rest fun v x hsplit hx => ?_
  cases hfirst : first r (v.reverse ++ before) (x ++ rest) with
  | none => rfl
  | some d =>
      exfalso
      obtain ⟨-, hpre⟩ := h _ _ d hfirst
      obtain ⟨c, w', rfl⟩ := List.exists_cons_of_ne_nil hne
      obtain ⟨y, x', rfl⟩ := List.exists_cons_of_ne_nil hx
      obtain ⟨rfl, -⟩ := List.cons_prefix_cons.mp hpre
      have hy : c = newline := by
        have hin : c ∈ [newline] := by rw [hsplit]; simp
        exact List.mem_singleton.mp hin
      exact hw (by rw [hy]; exact List.mem_cons_self ..)

theorem Heads.skip_lines {r : Regex α} {newline : α} {w : List α} (h : Heads r newline w)
    (hw : newline ∉ w) (hne : w ≠ []) : ∀ (ls : List (List α)) (before rest : List α),
    (∀ l ∈ ls, newline ∉ l ∧ ¬ w <+: l) → (rest = [] ∨ rest.head? = some newline) →
      searchFrom r before (ls.flatMap (newline :: ·) ++ rest) =
        searchFrom r ((ls.flatMap (newline :: ·)).reverse ++ before) rest := by
  intro ls
  induction ls with
  | nil => intro before rest _ _; rfl
  | cons l ls ih =>
      intro before rest hls hrest
      obtain ⟨⟨hl, hno⟩, hls⟩ := List.forall_mem_cons.mp hls
      have hmore : ls.flatMap (newline :: ·) ++ rest = [] ∨
          (ls.flatMap (newline :: ·) ++ rest).head? = some newline := by
        cases ls with
        | nil => exact hrest
        | cons l' ls => exact Or.inr rfl
      rw [List.flatMap_cons, List.append_assoc, List.cons_append, h.skip_newline hw hne,
        h.skip_line hw hl hno _ hmore, ih _ rest hls hrest]
      simp

end Heads
end Backtrack
