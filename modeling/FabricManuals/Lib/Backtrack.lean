import Mathlib.Data.List.Basic
import Mathlib.Data.List.TakeWhile
import Mathlib.Logic.Relation

/-! # Backtracking regular expressions

`Regex α` is the fragment of the Perl family that has sets, zero-width tests,
sequence, alternation, greedy and lazy repetition and one capturing group, over
any alphabet.  `run` lists every way a pattern matches at a cursor, in the order
a backtracking matcher tries them, so the match an engine reports is the head of
the list.  Search and iteration scan the subject from the left; an iteration
resumes behind the text it has consumed.

Membership in `run` has one rule for each constructor.  The last section gives
the rules callers use: where a search stops, and that iteration misses nothing
when no match can begin inside another. -/
set_option autoImplicit false

namespace Backtrack

/-- A place in the subject: what lies behind, nearest first, what lies ahead, and
what the capturing group last took. -/
structure Cursor (α : Type) where
  before : List α
  after : List α
  group : Option (List α)
deriving DecidableEq

inductive Regex (α : Type)
  | eps
  | set (p : α → Bool)
  | look (p : List α → List α → Bool)
  | seq (r s : Regex α)
  | alt (r s : Regex α)
  | star (greedy : Bool) (r : Regex α)
  | capture (r : Regex α)

section Run
variable {α : Type}

def Cursor.consumedBy (c d : Cursor α) : List α := c.after.take (c.after.length - d.after.length)

/-- Repetition spends one unit of fuel on each round and keeps only rounds that
consume, so as much fuel as there is text ahead is enough. -/
def iterate (greedy : Bool) (step : Cursor α → List (Cursor α)) : Nat → Cursor α → List (Cursor α)
  | 0, c => [c]
  | fuel + 1, c =>
    let more := ((step c).filter fun d => d.after.length < c.after.length).flatMap
      (iterate greedy step fuel)
    if greedy then more ++ [c] else c :: more

def Regex.run : Regex α → Cursor α → List (Cursor α)
  | .eps, c => [c]
  | .set p, c =>
    match c.after with
    | [] => []
    | a :: rest => if p a then [⟨a :: c.before, rest, c.group⟩] else []
  | .look p, c => if p c.before c.after then [c] else []
  | .seq r s, c => (r.run c).flatMap s.run
  | .alt r s, c => r.run c ++ s.run c
  | .star greedy r, c => iterate greedy r.run c.after.length c
  | .capture r, c => (r.run c).map fun d => { d with group := some (c.consumedBy d) }

def concat : List (Regex α) → Regex α
  | [] => .eps
  | r :: rest => .seq r (concat rest)

def plus (greedy : Bool) (r : Regex α) : Regex α := .seq r (.star greedy r)

def times (n : Nat) (r : Regex α) : Regex α := concat (List.replicate n r)

def lit [BEq α] (w : List α) : Regex α := concat (w.map fun a => .set (· == a))

def bos : Regex α := .look fun before _ => before.isEmpty

def bol [BEq α] (newline : α) : Regex α :=
  .look fun before _ => before.isEmpty || before.head? == some newline

def eol [BEq α] (newline : α) : Regex α :=
  .look fun _ after => after.isEmpty || after.head? == some newline

/-- `$` without the multi-line flag: the end, or just before a final newline. -/
def eos [BEq α] (newline : α) : Regex α := .look fun _ after => after.isEmpty || after == [newline]

def wordBoundary (word : α → Bool) : Regex α :=
  .look fun before after => before.head?.any word != after.head?.any word

def first (r : Regex α) (before after : List α) : Option (Cursor α) :=
  (r.run ⟨before, after, none⟩).head?

def searchFrom (r : Regex α) : List α → List α → Option (Cursor α)
  | before, [] => first r before []
  | before, a :: rest =>
    match first r before (a :: rest) with
    | some d => some d
    | none => searchFrom r (a :: before) rest

def search (r : Regex α) (subject : List α) : Option (Cursor α) := searchFrom r [] subject

def groupOf (m : Cursor α) : List α := m.group.getD []

structure Hit (α : Type) where
  text : List α
  group : List α
deriving DecidableEq

def Hit.of (after : List α) (d : Cursor α) : Hit α :=
  let text := (⟨[], after, none⟩ : Cursor α).consumedBy d
  ⟨text, d.group.getD text⟩

/-- `skip` counts the characters of the last hit that are still to be passed. -/
def iterFrom (r : Regex α) : Nat → List α → List α → List (Hit α)
  | 0, before, [] => ((first r before []).map (Hit.of [])).toList
  | _ + 1, _, [] => []
  | skip + 1, before, a :: rest => iterFrom r skip (a :: before) rest
  | 0, before, a :: rest =>
    match first r before (a :: rest) with
    | some d =>
      Hit.of (a :: rest) d :: iterFrom r ((Hit.of (a :: rest) d).text.length - 1) (a :: before) rest
    | none => iterFrom r 0 (a :: before) rest

def finditer (r : Regex α) (subject : List α) : List (Hit α) := iterFrom r 0 [] subject

/-- The text a pattern's group takes, or the whole hit where it has no group. -/
def findall (r : Regex α) (subject : List α) : List (List α) := (finditer r subject).map Hit.group

end Run

/-! ## What a pattern can match -/

section Members
variable {α : Type}

@[simp] theorem run_eps (c : Cursor α) : (Regex.eps : Regex α).run c = [c] := rfl

@[simp] theorem run_seq (r s : Regex α) (c : Cursor α) :
    (Regex.seq r s).run c = (r.run c).flatMap s.run := rfl

@[simp] theorem run_alt (r s : Regex α) (c : Cursor α) :
    (Regex.alt r s).run c = r.run c ++ s.run c := rfl

@[simp] theorem run_concat_nil (c : Cursor α) : (concat ([] : List (Regex α))).run c = [c] := rfl

@[simp] theorem run_concat_cons (r : Regex α) (rest : List (Regex α)) (c : Cursor α) :
    (concat (r :: rest)).run c = (r.run c).flatMap (concat rest).run := rfl

theorem run_set (p : α → Bool) (before after : List α) (g : Option (List α)) :
    (Regex.set p).run ⟨before, after, g⟩ =
      match after with
      | [] => []
      | a :: rest => if p a then [⟨a :: before, rest, g⟩] else [] := rfl

theorem mem_run_set (p : α → Bool) (c d : Cursor α) :
    d ∈ (Regex.set p).run c ↔
      ∃ a, p a = true ∧ c.after = a :: d.after ∧ d.before = a :: c.before ∧ d.group = c.group := by
  obtain ⟨before, after, g⟩ := c
  obtain ⟨before', after', g'⟩ := d
  cases after with
  | nil => simp [run_set]
  | cons a rest =>
      simp only [run_set]
      by_cases h : p a = true
      · simp only [h, if_true, List.mem_singleton, Cursor.mk.injEq, List.cons.injEq]
        constructor
        · rintro ⟨rfl, rfl, rfl⟩; exact ⟨a, h, ⟨rfl, rfl⟩, rfl, rfl⟩
        · rintro ⟨b, _, ⟨rfl, rfl⟩, rfl, rfl⟩; exact ⟨rfl, rfl, rfl⟩
      · simp only [h, if_false, Bool.false_eq_true, List.not_mem_nil, false_iff]
        intro h
        obtain ⟨b, hb, heq, _, _⟩ := h
        simp only [List.cons.injEq] at heq
        exact h (heq.1 ▸ hb)

@[simp] theorem mem_run_look (p : List α → List α → Bool) (c d : Cursor α) :
    d ∈ (Regex.look p).run c ↔ p c.before c.after = true ∧ d = c := by
  unfold Regex.run
  by_cases h : p c.before c.after = true <;> simp [h]

@[simp] theorem mem_run_capture (r : Regex α) (c d : Cursor α) :
    d ∈ (Regex.capture r).run c ↔
      ∃ e ∈ r.run c, d = { e with group := some (c.consumedBy e) } := by
  simp only [Regex.run, List.mem_map]
  constructor
  · rintro ⟨e, he, rfl⟩; exact ⟨e, he, rfl⟩
  · rintro ⟨e, he, rfl⟩; exact ⟨e, he, rfl⟩

def Advances (c d : Cursor α) (w : List α) : Prop :=
  c.after = w ++ d.after ∧ d.before = w.reverse ++ c.before

theorem Advances.refl (c : Cursor α) : Advances c c [] := ⟨rfl, rfl⟩

theorem Advances.trans {c d e : Cursor α} {v w : List α} (h : Advances c d v)
    (k : Advances d e w) : Advances c e (v ++ w) := by
  refine ⟨?_, ?_⟩
  · rw [h.1, k.1, List.append_assoc]
  · rw [k.2, h.2, List.reverse_append, List.append_assoc]

theorem Advances.consumedBy {c d : Cursor α} {w : List α} (h : Advances c d w) :
    c.consumedBy d = w := by
  simp [Cursor.consumedBy, h.1]

theorem Advances.split {c d : Cursor α} {v w : List α} (h : Advances c d (v ++ w))
    (g : Option (List α)) : ∃ e, e.group = g ∧ Advances c e v ∧ Advances e d w := by
  refine ⟨⟨v.reverse ++ c.before, w ++ d.after, g⟩, rfl, ⟨?_, rfl⟩, rfl, ?_⟩
  · rw [h.1, List.append_assoc]
  · rw [h.2, List.reverse_append, List.append_assoc]

theorem mem_iterate_succ (greedy : Bool) (step : Cursor α → List (Cursor α)) (fuel : Nat)
    (c d : Cursor α) :
    d ∈ iterate greedy step (fuel + 1) c ↔
      d = c ∨ ∃ e ∈ step c, e.after.length < c.after.length ∧ d ∈ iterate greedy step fuel e := by
  cases greedy with
  | false => simp [iterate, and_assoc]
  | true => simp [iterate, and_assoc, or_comm]

def Round (r : Regex α) (c e : Cursor α) : Prop := e ∈ r.run c ∧ e.after.length < c.after.length

/-- Repetition is round after round; the fuel is no part of it. -/
theorem mem_run_star (greedy : Bool) (r : Regex α) (c d : Cursor α) :
    d ∈ (Regex.star greedy r).run c ↔ Relation.ReflTransGen (Round r) c d := by
  constructor
  · have main : ∀ fuel c, d ∈ iterate greedy r.run fuel c → Relation.ReflTransGen (Round r) c d := by
      intro fuel
      induction fuel with
      | zero =>
          intro c h
          rw [iterate, List.mem_singleton] at h
          rw [h]
      | succ fuel ih =>
          intro c h
          rcases (mem_iterate_succ ..).mp h with rfl | ⟨e, he, hlt, hd⟩
          · exact .refl
          · exact .head ⟨he, hlt⟩ (ih e hd)
    exact main _ c
  · intro h
    have main : ∀ fuel, c.after.length ≤ fuel → d ∈ iterate greedy r.run fuel c := by
      induction h using Relation.ReflTransGen.head_induction_on with
      | refl =>
          intro fuel _
          cases fuel with
          | zero => exact List.mem_singleton.mpr rfl
          | succ fuel => exact (mem_iterate_succ ..).mpr (Or.inl rfl)
      | head hround _ ih =>
          intro fuel hfuel
          obtain ⟨he, hlt⟩ := hround
          cases fuel with
          | zero => omega
          | succ fuel => exact (mem_iterate_succ ..).mpr (Or.inr ⟨_, he, hlt, ih fuel (by omega)⟩)
    exact main _ (Nat.le_refl _)

/-- Whatever a pattern does, it moves forward over the text ahead of it. -/
theorem run_advances (r : Regex α) : ∀ c, ∀ d ∈ r.run c, ∃ w, Advances c d w := by
  induction r with
  | eps =>
      intro c d hd
      rw [run_eps, List.mem_singleton] at hd
      exact ⟨[], hd ▸ Advances.refl c⟩
  | set p =>
      intro c d hd
      obtain ⟨a, _, hafter, hbefore, _⟩ := (mem_run_set p c d).mp hd
      exact ⟨[a], hafter, hbefore⟩
  | look p =>
      intro c d hd
      obtain ⟨_, rfl⟩ := (mem_run_look p c d).mp hd
      exact ⟨[], Advances.refl d⟩
  | seq r s ihr ihs =>
      intro c d hd
      rw [run_seq, List.mem_flatMap] at hd
      obtain ⟨e, he, hd⟩ := hd
      obtain ⟨v, hv⟩ := ihr c e he
      obtain ⟨w, hw⟩ := ihs e d hd
      exact ⟨v ++ w, hv.trans hw⟩
  | alt r s ihr ihs =>
      intro c d hd
      rw [run_alt, List.mem_append] at hd
      rcases hd with hd | hd
      · exact ihr c d hd
      · exact ihs c d hd
  | star greedy r ih =>
      intro c d hd
      rw [mem_run_star] at hd
      induction hd with
      | refl => exact ⟨[], Advances.refl c⟩
      | tail _ hlast ih' =>
          obtain ⟨v, hv⟩ := ih'
          obtain ⟨w, hw⟩ := ih _ _ hlast.1
          exact ⟨v ++ w, hv.trans hw⟩
  | capture r ih =>
      intro c d hd
      obtain ⟨e, he, rfl⟩ := (mem_run_capture r c d).mp hd
      exact ih c e he

theorem advances_nil_iff (c d : Cursor α) :
    Advances c d [] ∧ d.group = c.group ↔ d = c := by
  obtain ⟨db, da, dg⟩ := d
  obtain ⟨cb, ca, cg⟩ := c
  simp only [Advances, List.nil_append, List.reverse_nil, Cursor.mk.injEq]
  constructor
  · rintro ⟨⟨ha, hb⟩, hg⟩; exact ⟨hb, ha.symm, hg⟩
  · rintro ⟨hb, ha, hg⟩; exact ⟨⟨ha.symm, hb⟩, hg⟩

theorem advances_cons_iff (p : α → Bool) (c d : Cursor α) (a : α) (w : List α) :
    (p a = true ∧ Advances c d (a :: w) ∧ d.group = c.group) ↔
      ∃ e ∈ (Regex.set p).run c, e.before.head? = some a ∧ Advances e d w ∧ d.group = e.group := by
  constructor
  · intro h
    obtain ⟨ha, ⟨hafter, hbefore⟩, hg⟩ := h
    refine ⟨⟨a :: c.before, w ++ d.after, c.group⟩, ?_, rfl, ⟨rfl, by simpa using hbefore⟩, hg⟩
    exact (mem_run_set p c _).mpr ⟨a, ha, hafter, rfl, rfl⟩
  · intro h
    obtain ⟨e, he, hhead, hw, hg⟩ := h
    obtain ⟨b, hb, hafter, hbefore, hge⟩ := (mem_run_set p c e).mp he
    obtain rfl : b = a := by simpa [hbefore] using hhead
    have hone : Advances c e [b] := ⟨hafter, hbefore⟩
    exact ⟨hb, hone.trans hw, hg.trans hge⟩

theorem head_of_mem_run_set {p : α → Bool} {c e : Cursor α} (he : e ∈ (Regex.set p).run c) :
    ∃ a, e.before.head? = some a := by
  obtain ⟨a, _, _, hbefore, _⟩ := (mem_run_set p c e).mp he
  exact ⟨a, by rw [hbefore]; rfl⟩

theorem mem_run_star_set (greedy : Bool) (p : α → Bool) (c d : Cursor α) :
    d ∈ (Regex.star greedy (.set p)).run c ↔
      ∃ w, (∀ a ∈ w, p a = true) ∧ Advances c d w ∧ d.group = c.group := by
  rw [mem_run_star]
  constructor
  · intro h
    induction h using Relation.ReflTransGen.head_induction_on with
    | refl => exact ⟨[], by simp, (advances_nil_iff d d).mpr rfl⟩
    | head hround _ ih =>
        obtain ⟨w, hall, hw⟩ := ih
        obtain ⟨a, ha⟩ := head_of_mem_run_set hround.1
        have hcons := (advances_cons_iff p _ d a w).mpr ⟨_, hround.1, ha, hw⟩
        exact ⟨a :: w, List.forall_mem_cons.mpr ⟨hcons.1, hall⟩, hcons.2⟩
  · intro h
    obtain ⟨w, hall, hw⟩ := h
    induction w generalizing c with
    | nil => rw [(advances_nil_iff c d).mp hw]
    | cons a w ih =>
        obtain ⟨ha, hall⟩ := List.forall_mem_cons.mp hall
        obtain ⟨e, he, _, hew⟩ := (advances_cons_iff p c d a w).mp ⟨ha, hw⟩
        have hlt : e.after.length < c.after.length := by
          obtain ⟨b, _, hafter, _⟩ := (mem_run_set p c e).mp he
          simp [hafter]
        exact .head ⟨he, hlt⟩ (ih e hall hew)

theorem mem_run_plus_set (greedy : Bool) (p : α → Bool) (c d : Cursor α) :
    d ∈ (plus greedy (.set p)).run c ↔
      ∃ w, w ≠ [] ∧ (∀ a ∈ w, p a = true) ∧ Advances c d w ∧ d.group = c.group := by
  simp only [plus, run_seq, List.mem_flatMap, mem_run_star_set]
  constructor
  · intro h
    obtain ⟨e, he, w, hall, hw⟩ := h
    obtain ⟨a, ha⟩ := head_of_mem_run_set he
    have hcons := (advances_cons_iff p c d a w).mpr ⟨e, he, ha, hw⟩
    exact ⟨a :: w, by simp, List.forall_mem_cons.mpr ⟨hcons.1, hall⟩, hcons.2⟩
  · intro h
    obtain ⟨w, hne, hall, hw⟩ := h
    cases w with
    | nil => exact absurd rfl hne
    | cons a w =>
        obtain ⟨ha, hall⟩ := List.forall_mem_cons.mp hall
        obtain ⟨e, he, _, hew⟩ := (advances_cons_iff p c d a w).mp ⟨ha, hw⟩
        exact ⟨e, he, w, hall, hew⟩

theorem mem_run_times_set (p : α → Bool) (n : Nat) :
    ∀ c d : Cursor α, d ∈ (times n (.set p)).run c ↔
      ∃ w, w.length = n ∧ (∀ a ∈ w, p a = true) ∧ Advances c d w ∧ d.group = c.group := by
  induction n with
  | zero =>
      intro c d
      simp only [times, List.replicate_zero, run_concat_nil, List.mem_singleton,
        List.length_eq_zero_iff]
      constructor
      · intro h
        exact ⟨[], rfl, by simp, (advances_nil_iff c d).mpr h⟩
      · intro h
        obtain ⟨w, rfl, _, hw⟩ := h
        exact (advances_nil_iff c d).mp hw
  | succ n ih =>
      intro c d
      have hstep : (times (n + 1) (Regex.set p)).run c =
          ((Regex.set p).run c).flatMap (times n (.set p)).run := rfl
      rw [hstep, List.mem_flatMap]
      constructor
      · intro h
        obtain ⟨e, he, hd⟩ := h
        obtain ⟨w, hlen, hall, hw⟩ := (ih e d).mp hd
        obtain ⟨a, ha⟩ := head_of_mem_run_set he
        have hcons := (advances_cons_iff p c d a w).mpr ⟨e, he, ha, hw⟩
        exact ⟨a :: w, by simp [hlen], List.forall_mem_cons.mpr ⟨hcons.1, hall⟩, hcons.2⟩
      · intro h
        obtain ⟨w, hlen, hall, hw⟩ := h
        cases w with
        | nil => simp at hlen
        | cons a w =>
            obtain ⟨ha, hall⟩ := List.forall_mem_cons.mp hall
            obtain ⟨e, he, _, hew⟩ := (advances_cons_iff p c d a w).mp ⟨ha, hw⟩
            exact ⟨e, he, (ih e d).mpr ⟨w, by simpa using hlen, hall, hew⟩⟩

theorem mem_run_lit [BEq α] [LawfulBEq α] (w : List α) :
    ∀ c d : Cursor α, d ∈ (lit w).run c ↔ Advances c d w ∧ d.group = c.group := by
  induction w with
  | nil =>
      intro c d
      simp only [lit, List.map_nil, run_concat_nil, List.mem_singleton]
      exact (advances_nil_iff c d).symm
  | cons a w ih =>
      intro c d
      have hstep : (lit (a :: w)).run c = ((Regex.set (· == a)).run c).flatMap (lit w).run := rfl
      rw [hstep, List.mem_flatMap]
      constructor
      · intro h
        obtain ⟨e, he, hd⟩ := h
        obtain ⟨b, hb⟩ := head_of_mem_run_set he
        have hcons := (advances_cons_iff _ c d b w).mpr ⟨e, he, hb, (ih e d).mp hd⟩
        obtain rfl : b = a := eq_of_beq hcons.1
        exact hcons.2
      · intro hw
        obtain ⟨e, he, _, hew⟩ :=
          (advances_cons_iff (· == a) c d a w).mp ⟨beq_self_eq_true a, hw⟩
        exact ⟨e, he, (ih e d).mpr hew⟩

theorem mem_run_sets : ∀ (ps : List (α → Bool)) (c d : Cursor α),
    d ∈ (concat (ps.map .set)).run c ↔
      ∃ w, List.Forall₂ (fun p a => p a = true) ps w ∧ Advances c d w ∧ d.group = c.group := by
  intro ps
  induction ps with
  | nil =>
      intro c d
      simp only [List.map_nil, run_concat_nil, List.mem_singleton]
      constructor
      · intro h
        exact ⟨[], .nil, (advances_nil_iff c d).mpr h⟩
      · intro h
        obtain ⟨w, hall, hw⟩ := h
        cases hall
        exact (advances_nil_iff c d).mp hw
  | cons p ps ih =>
      intro c d
      rw [List.map_cons, run_concat_cons, List.mem_flatMap]
      constructor
      · intro h
        obtain ⟨e, he, hd⟩ := h
        obtain ⟨w, hall, hw⟩ := (ih e d).mp hd
        obtain ⟨a, ha⟩ := head_of_mem_run_set he
        have hcons := (advances_cons_iff p c d a w).mpr ⟨e, he, ha, hw⟩
        exact ⟨a :: w, .cons hcons.1 hall, hcons.2⟩
      · intro h
        obtain ⟨w, hall, hw⟩ := h
        cases hall with
        | @cons _ a _ w ha hall =>
            obtain ⟨e, he, _, hew⟩ := (advances_cons_iff p c d a w).mp ⟨ha, hw⟩
            exact ⟨e, he, (ih e d).mpr ⟨w, hall, hew⟩⟩

end Members

/-! ## Searching and iterating -/

section Scan
variable {α : Type}

theorem first_mem {r : Regex α} {before after : List α} {d : Cursor α}
    (h : first r before after = some d) : d ∈ r.run ⟨before, after, none⟩ :=
  List.mem_of_mem_head? (by rw [← first, h]; rfl)

theorem first_isSome_iff (r : Regex α) (before after : List α) :
    (first r before after).isSome ↔ ∃ d, d ∈ r.run ⟨before, after, none⟩ := by
  unfold first
  cases h : r.run ⟨before, after, none⟩ with
  | nil => simp
  | cons d rest => simp

theorem first_eq_none_iff (r : Regex α) (before after : List α) :
    first r before after = none ↔ ∀ d, d ∉ r.run ⟨before, after, none⟩ := by
  rw [← Option.not_isSome_iff_eq_none, first_isSome_iff, not_exists]

theorem iterFrom_sound {r : Regex α} {hit : Hit α} :
    ∀ (after before : List α) (skip : Nat), hit ∈ iterFrom r skip before after →
      ∃ pre post d, after = pre ++ post ∧ first r (pre.reverse ++ before) post = some d ∧
        hit = Hit.of post d := by
  intro after
  induction after with
  | nil =>
      intro before skip h
      cases skip with
      | zero =>
          simp only [iterFrom, Option.mem_toList, Option.map_eq_some_iff] at h
          obtain ⟨d, hd, rfl⟩ := h
          exact ⟨[], [], d, rfl, hd, rfl⟩
      | succ skip => simp [iterFrom] at h
  | cons a rest ih =>
      intro before skip h
      have later : ∀ skip, hit ∈ iterFrom r skip (a :: before) rest →
          ∃ pre post d, a :: rest = pre ++ post ∧ first r (pre.reverse ++ before) post = some d ∧
            hit = Hit.of post d := by
        intro skip h
        obtain ⟨pre, post, d, hsplit, hfirst, hhit⟩ := ih (a :: before) skip h
        exact ⟨a :: pre, post, d, by simp [hsplit], by simpa using hfirst, hhit⟩
      cases skip with
      | zero =>
          unfold iterFrom at h
          split at h
          next d hd =>
            rcases List.mem_cons.mp h with rfl | h
            · exact ⟨[], a :: rest, d, rfl, hd, rfl⟩
            · exact later _ h
          next => exact later _ h
      | succ skip =>
          unfold iterFrom at h
          exact later _ h

/-- Every match of `r` begins with `a`, which does not occur in it again. -/
def Led (r : Regex α) (a : α) : Prop :=
  ∀ before after d, first r before after = some d → ∃ w, after = a :: w ++ d.after ∧ a ∉ w

theorem hit_text_of_advances {before after : List α} {d : Cursor α} {w : List α}
    (h : Advances ⟨before, after, none⟩ d w) : (Hit.of after d).text = w := by
  have hw : (⟨[], after, none⟩ : Cursor α).consumedBy d = w := by
    simp [Cursor.consumedBy, show after = w ++ d.after from h.1]
  simpa [Hit.of] using hw

theorem hit_of_first {r : Regex α} {before after : List α} {d : Cursor α}
    (h : first r before after = some d) :
    ∃ w, Advances ⟨before, after, none⟩ d w ∧ (Hit.of after d).text = w := by
  obtain ⟨w, hw⟩ := run_advances r _ d (first_mem h)
  exact ⟨w, hw, hit_text_of_advances hw⟩

/-- A led pattern has no match inside another, so iteration reports them all.
While `skip` characters are passed, none of them is the leading one. -/
theorem iterFrom_complete {r : Regex α} {a : α} (led : Led r a) {post : List α} {d : Cursor α} :
    ∀ (pre before : List α) (skip : Nat), a ∉ (pre ++ post).take skip →
      first r (pre.reverse ++ before) post = some d →
      Hit.of post d ∈ iterFrom r skip before (pre ++ post) := by
  intro pre
  induction pre with
  | nil =>
      intro before skip hskip hd
      obtain ⟨w, hpost, _⟩ := led _ _ _ hd
      subst hpost
      cases skip with
      | zero =>
          have hd' : first r before (a :: (w ++ d.after)) = some d := hd
          simp only [List.nil_append, List.cons_append, iterFrom, hd']
          exact List.mem_cons_self ..
      | succ skip => simp at hskip
  | cons b pre ih =>
      intro before skip hskip hd
      have hd' : first r (pre.reverse ++ (b :: before)) post = some d := by simpa using hd
      cases skip with
      | zero =>
          simp only [List.cons_append, iterFrom]
          split
          next e he =>
            obtain ⟨v, hv, hav⟩ := led _ _ _ he
            obtain ⟨w, hw, htext⟩ := hit_of_first he
            have hwv : w = a :: v := by
              have := hw.1.symm.trans hv
              exact List.append_cancel_right this
            refine List.mem_cons_of_mem _ (ih (b :: before) _ ?_ hd')
            have hbv : b :: (pre ++ post) = a :: (v ++ e.after) := hv
            simp only [List.cons.injEq] at hbv
            rw [htext, hwv, hbv.2]
            simpa using hav
          next => exact ih (b :: before) 0 (by simp) hd'
      | succ skip =>
          simp only [List.cons_append, iterFrom]
          refine ih (b :: before) skip ?_ hd'
          simp only [List.cons_append, List.take_succ_cons, List.mem_cons, not_or] at hskip
          exact hskip.2

theorem mem_finditer_iff {r : Regex α} {a : α} (led : Led r a) (s : List α) (hit : Hit α) :
    hit ∈ finditer r s ↔
      ∃ pre post d, s = pre ++ post ∧ first r pre.reverse post = some d ∧ hit = Hit.of post d := by
  constructor
  · intro h
    simpa using iterFrom_sound s [] 0 h
  · intro h
    obtain ⟨pre, post, d, rfl, hd, rfl⟩ := h
    exact iterFrom_complete led pre [] 0 (by simp) (by simpa using hd)

theorem findall_sound {r : Regex α} (S : List α → List α → List α → List α → Prop)
    (hr : ∀ before after d, d ∈ r.run ⟨before, after, none⟩ →
      ∃ g w, S before g w d.after ∧ Advances ⟨before, after, none⟩ d w ∧ d.group = some g)
    {s g : List α} (h : g ∈ findall r s) :
    ∃ pre w post, s = pre ++ (w ++ post) ∧ S pre.reverse g w post := by
  obtain ⟨hit, hmem, rfl⟩ := List.mem_map.mp h
  obtain ⟨pre, post, d, rfl, hd, rfl⟩ := iterFrom_sound s [] 0 hmem
  obtain ⟨g, w, hS, hadv, hg⟩ := hr _ _ _ (first_mem hd)
  refine ⟨pre, w, d.after, by rw [← show post = w ++ d.after from hadv.1], ?_⟩
  simpa [Hit.of, hg] using hS

/-- For a led pattern whose matches are known (`S before group text rest`) and take
one group at each place, `findall` lists exactly the groups of all its matches. -/
theorem mem_findall_iff {r : Regex α} {a : α} (S : List α → List α → List α → List α → Prop)
    (hr : ∀ before after d, d ∈ r.run ⟨before, after, none⟩ ↔
      ∃ g w, S before g w d.after ∧ Advances ⟨before, after, none⟩ d w ∧ d.group = some g)
    (lead : ∀ before g w rest, S before g w rest → ∃ v, w = a :: v ∧ a ∉ v)
    (unique : ∀ before g g' w w' rest rest', S before g w rest → S before g' w' rest' →
      w ++ rest = w' ++ rest' → g = g') (s g : List α) :
    g ∈ findall r s ↔ ∃ pre w post, s = pre ++ (w ++ post) ∧ S pre.reverse g w post := by
  have led : Led r a := by
    intro before after d hd
    obtain ⟨g, w, hS, hadv, _⟩ := (hr before after d).mp (first_mem hd)
    obtain ⟨v, rfl, hv⟩ := lead _ _ _ _ hS
    exact ⟨v, hadv.1, hv⟩
  refine ⟨findall_sound S fun before after d => (hr before after d).mp, ?_⟩
  intro h
  obtain ⟨pre, w, post, rfl, hS⟩ := h
  have hsome : (first r pre.reverse (w ++ post)).isSome := by
    rw [first_isSome_iff]
    exact ⟨⟨w.reverse ++ pre.reverse, post, some g⟩, (hr _ _ _).mpr ⟨g, w, hS, ⟨rfl, rfl⟩, rfl⟩⟩
  obtain ⟨d, hd⟩ := Option.isSome_iff_exists.mp hsome
  obtain ⟨g', w', hS', hadv, hg'⟩ := (hr _ _ _).mp (first_mem hd)
  refine List.mem_map.mpr ⟨_, (mem_finditer_iff led ..).mpr ⟨pre, w ++ post, d, rfl, hd, rfl⟩, ?_⟩
  rw [unique _ _ _ _ _ _ _ hS hS' hadv.1]
  simp [Hit.of, hg']

end Scan
end Backtrack
