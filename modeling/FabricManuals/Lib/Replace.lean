import FabricManuals.Lib.FirstMatch

/-! # Replacing every match

`sub` puts a text in the place of each match, from the left.  For a pattern that
takes whole lines by their opening the result is told line by line. -/
set_option autoImplicit false

namespace Backtrack

open Lines

section Sub
variable {α : Type}

/-- `skip` counts the characters of the last match that are still to be dropped. -/
def subFrom (r : Regex α) (repl : List α) : Nat → List α → List α → List α
  | 0, before, [] => if (first r before []).isSome then repl else []
  | _ + 1, _, [] => []
  | skip + 1, before, a :: rest => subFrom r repl skip (a :: before) rest
  | 0, before, a :: rest =>
    match first r before (a :: rest) with
    | some d =>
      match (Hit.of (a :: rest) d).text.length with
      | 0 => repl ++ a :: subFrom r repl 0 (a :: before) rest
      | n + 1 => repl ++ subFrom r repl n (a :: before) rest
    | none => a :: subFrom r repl 0 (a :: before) rest

def sub (r : Regex α) (repl s : List α) : List α := subFrom r repl 0 [] s

theorem run_concat_singleton (r : Regex α) (c : Cursor α) : (concat [r]).run c = r.run c := by
  have hpure : (concat ([] : List (Regex α))).run = fun c => [c] := rfl
  rw [run_concat_cons, hpure, List.flatMap_singleton']

end Sub

section LineOpening
variable {α : Type} [DecidableEq α]

theorem run_lit_eq (w before after : List α) (g : Option (List α)) :
    (lit w).run ⟨before, after, g⟩ =
      if w <+: after then [⟨w.reverse ++ before, after.drop w.length, g⟩] else [] := by
  by_cases hpre : w <+: after
  · obtain ⟨rest, rfl⟩ := hpre
    rw [if_pos (List.prefix_append ..), run_lit_append, List.drop_left]
  · rw [if_neg hpre, List.eq_nil_iff_forall_not_mem]
    intro d hd
    exact hpre ⟨d.after, ((mem_run_lit w _ d).mp hd).1.1.symm⟩

/-- `^w.*` line by line. -/
def lineOpening (nl : α) (w : List α) : Regex α :=
  concat [bol nl, lit w, .star true (.set (· != nl))]

variable {nl : α} {w : List α}

theorem first_lineOpening (hw : nl ∉ w) {before : List α} (hb : before = [] ∨ before.head? = some nl)
    (after : List α) :
    (first (lineOpening nl w) before after).map (fun d => (Hit.of after d).text) =
      if w <+: firstLine nl after then some (firstLine nl after) else none := by
  have hbol : (bol nl).run ⟨before, after, none⟩ = [⟨before, after, none⟩] := by
    rcases hb with rfl | hb
    · simp [bol, Regex.run]
    · simp [bol, Regex.run, hb]
  simp only [first, lineOpening, run_concat_cons, hbol, List.flatMap_cons, List.flatMap_nil,
    List.append_nil, run_lit_eq, ← prefix_firstLine nl w after hw]
  by_cases hpre : w <+: after
  · obtain ⟨rest, rfl⟩ := hpre
    have hline : firstLine nl (w ++ rest) = w ++ rest.takeWhile (· != nl) := by
      rw [firstLine, splitOn_append nl hw, firstLine_eq_takeWhile]
      rfl
    have hrun := head?_run_star_set (· != nl) rest (w.reverse ++ before) (none : Option (List α))
    have hadv : Advances ⟨before, w ++ rest, none⟩
        ⟨(rest.takeWhile (· != nl)).reverse ++ (w.reverse ++ before), rest.dropWhile (· != nl), none⟩
        (firstLine nl (w ++ rest)) := by
      refine ⟨?_, ?_⟩
      · rw [hline, List.append_assoc]
        exact congrArg (w ++ ·) (List.takeWhile_append_dropWhile ..).symm
      · rw [hline, List.reverse_append, List.append_assoc]
    simp only [List.prefix_append, if_true, List.flatMap_cons, List.flatMap_nil, List.append_nil,
      List.drop_left, run_concat_singleton, hrun, Option.map_some, hit_text_of_advances hadv]
  · rw [if_neg hpre, if_neg hpre]
    rfl

theorem first_lineOpening_none (hw : nl ∉ w) {before : List α} (hb : before = [] ∨ before.head? = some nl)
    {after : List α} (hline : ¬ w <+: firstLine nl after) :
    first (lineOpening nl w) before after = none := by
  have hfirst := first_lineOpening hw hb after
  rwa [if_neg hline, Option.map_eq_none_iff] at hfirst

theorem first_lineOpening_inside {b : α} (hb : b ≠ nl) (before after : List α) :
    first (lineOpening nl w) (b :: before) after = none := by
  have hbol : (bol nl).run ⟨b :: before, after, none⟩ = [] := by simp [bol, Regex.run, hb]
  simp [first, lineOpening, run_concat_cons, hbol]

theorem first_lineOpening_newline (hw : nl ∉ w) (hne : w ≠ []) (before rest : List α) :
    first (lineOpening nl w) before (nl :: rest) = none := by
  have hnil : ¬ w <+: firstLine nl (nl :: rest) := by
    rw [firstLine_newline]
    exact fun h => hne (List.prefix_nil.mp h)
  cases before with
  | nil => exact first_lineOpening_none hw (Or.inl rfl) hnil
  | cons b before =>
      by_cases hb : b = nl
      · exact first_lineOpening_none hw (Or.inr (by rw [hb, List.head?_cons])) hnil
      · exact first_lineOpening_inside hb before _

/-- Each line that has the opening is replaced as a whole and the others stay.  The
induction is on the text; inside a line nothing matches, and behind a match only the
rest of its line is dropped. -/
theorem splitOn_sub_lineOpening (hw : nl ∉ w) (hne : w ≠ []) {repl : List α} (hrepl : nl ∉ repl)
    (s : List α) :
    (sub (lineOpening nl w) repl s).splitOn nl =
      (s.splitOn nl).map fun l => if w <+: l then repl else l := by
  have hnil : ¬ w <+: ([] : List α) := fun h => hne (List.prefix_nil.mp h)
  have main : ∀ (s before : List α),
      ((before = [] ∨ before.head? = some nl) →
        (subFrom (lineOpening nl w) repl 0 before s).splitOn nl =
          (s.splitOn nl).map fun l => if w <+: l then repl else l) ∧
      (∀ b rest, before = b :: rest → b ≠ nl →
        (subFrom (lineOpening nl w) repl 0 before s).splitOn nl =
          firstLine nl s :: ((s.splitOn nl).tail.map fun l => if w <+: l then repl else l) ∧
        (subFrom (lineOpening nl w) repl (firstLine nl s).length before s).splitOn nl =
          [] :: ((s.splitOn nl).tail.map fun l => if w <+: l then repl else l)) := by
    intro s
    induction s with
    | nil =>
        intro before
        refine ⟨fun hb => ?_, ?_⟩
        · have hnone : first (lineOpening nl w) before [] = none :=
            first_lineOpening_none hw hb (by simpa [firstLine] using hnil)
          simp [subFrom, hnone, hnil]
        · rintro b rest rfl hb
          simp [subFrom, first_lineOpening_inside hb, firstLine]
    | cons a rest ih =>
        intro before
        by_cases ha : a = nl
        · subst ha
          have hnext := (ih (a :: before)).1 (Or.inr rfl)
          have hcopy : (subFrom (lineOpening a w) repl 0 before (a :: rest)).splitOn a =
              [] :: (rest.splitOn a).map fun l => if w <+: l then repl else l := by
            rw [subFrom, first_lineOpening_newline hw hne]
            simp only [splitOn_newline, hnext]
          refine ⟨fun _ => ?_, ?_⟩
          · rw [hcopy, splitOn_newline, List.map_cons, if_neg hnil]
          · rintro b more rfl -
            rw [firstLine_newline, List.length_nil, splitOn_newline, List.tail_cons, hcopy]
            exact ⟨rfl, rfl⟩
        · obtain ⟨hcopy, hdrop⟩ := (ih (a :: before)).2 a before rfl ha
          have hline := firstLine_cons nl ha rest
          have hkeep : (a :: subFrom (lineOpening nl w) repl 0 (a :: before) rest).splitOn nl =
              firstLine nl (a :: rest) ::
                ((rest.splitOn nl).tail.map fun l => if w <+: l then repl else l) := by
            rw [hline]
            exact splitOn_cons_of_eq nl ha hcopy
          refine ⟨fun hb => ?_, ?_⟩
          · rw [splitOn_cons nl ha, List.map_cons, ← hline]
            by_cases hpre : w <+: firstLine nl (a :: rest)
            · have hfirst := first_lineOpening hw hb (a :: rest)
              rw [if_pos hpre, Option.map_eq_some_iff] at hfirst
              obtain ⟨d, hd, htext⟩ := hfirst
              have hsub : subFrom (lineOpening nl w) repl 0 before (a :: rest) =
                  repl ++ subFrom (lineOpening nl w) repl (firstLine nl rest).length (a :: before) rest := by
                simp only [subFrom, hd, htext, hline, List.length_cons]
              rw [hsub, splitOn_append_of_eq nl hrepl hdrop, if_pos hpre, List.append_nil]
            · rw [subFrom, first_lineOpening_none hw hb hpre, if_neg hpre]
              exact hkeep
          · rintro b more rfl hb
            rw [splitOn_cons nl ha, List.tail_cons, hline, List.length_cons]
            refine ⟨?_, hdrop⟩
            rw [subFrom, first_lineOpening_inside hb, ← hline]
            exact hkeep
  exact (main s []).1 (Or.inl rfl)

theorem subFrom_lit_cons (hne : w ≠ []) (repl : List α) (a : α) (before rest : List α) :
    subFrom (lit w) repl 0 before (a :: rest) =
      if w <+: a :: rest then repl ++ subFrom (lit w) repl (w.length - 1) (a :: before) rest
      else a :: subFrom (lit w) repl 0 (a :: before) rest := by
  rw [subFrom, first, run_lit_eq]
  by_cases hpre : w <+: a :: rest
  · obtain ⟨n, hn⟩ : ∃ n, w.length = n + 1 :=
      Nat.exists_eq_succ_of_ne_zero fun h => hne (List.length_eq_zero_iff.mp h)
    have hadv : Advances ⟨before, a :: rest, none⟩ ⟨w.reverse ++ before, (a :: rest).drop w.length, none⟩ w := by
      obtain ⟨tail, htail⟩ := hpre
      refine ⟨?_, rfl⟩
      simp [← htail]
    simp only [if_pos hpre, List.head?_cons, hit_text_of_advances hadv]
    rw [hn]
    rfl
  · simp only [if_neg hpre, List.head?_nil]

theorem subFrom_lit_nil (hne : w ≠ []) (repl before : List α) :
    subFrom (lit w) repl 0 before [] = [] := by
  rw [subFrom, first, run_lit_eq, if_neg fun h => hne (List.prefix_nil.mp h)]
  rfl

/-- A text without a newline is replaced within each line.  A match that has begun ends
in the line it began in. -/
theorem splitOn_sub_lit (hw : nl ∉ w) (hne : w ≠ []) {repl : List α} (hrepl : nl ∉ repl) (s : List α) :
    (sub (lit w) repl s).splitOn nl = (s.splitOn nl).map (sub (lit w) repl) := by
  have main : ∀ (s : List α) (skip : Nat) (before before' : List α), skip ≤ (firstLine nl s).length →
      (subFrom (lit w) repl skip before s).splitOn nl =
        subFrom (lit w) repl skip before' (firstLine nl s) ::
          (s.splitOn nl).tail.map (sub (lit w) repl) := by
    intro s
    induction s with
    | nil =>
        intro skip before before' hskip
        obtain rfl : skip = 0 := by simpa [firstLine] using hskip
        simp [firstLine, subFrom_lit_nil hne]
    | cons a rest ih =>
        intro skip before before' hskip
        by_cases ha : a = nl
        · subst ha
          rw [firstLine_newline] at hskip ⊢
          obtain rfl : skip = 0 := by simpa using hskip
          have hpre : ¬ w <+: a :: rest := by
            rw [prefix_firstLine a w _ hw, firstLine_newline]
            exact fun h => hne (List.prefix_nil.mp h)
          rw [subFrom_lit_cons hne, if_neg hpre, splitOn_newline, splitOn_newline,
            subFrom_lit_nil hne, ih 0 _ [] (Nat.zero_le _), List.tail_cons]
          conv_rhs => rw [splitOn_eq_cons a rest]
          rfl
        · have hline := firstLine_cons nl ha rest
          have htail : ((a :: rest).splitOn nl).tail = (rest.splitOn nl).tail := by
            rw [splitOn_cons nl ha, List.tail_cons]
          rw [hline, htail]
          cases skip with
          | succ skip =>
              rw [hline, List.length_cons, Nat.add_le_add_iff_right] at hskip
              exact ih skip (a :: before) (a :: before') hskip
          | zero =>
              have hopens : w <+: a :: rest ↔ w <+: a :: firstLine nl rest := by
                rw [prefix_firstLine nl w _ hw, hline]
              rw [subFrom_lit_cons hne, subFrom_lit_cons hne]
              by_cases hpre : w <+: a :: firstLine nl rest
              · have hlen : w.length - 1 ≤ (firstLine nl rest).length := by
                  have := hpre.length_le
                  rw [List.length_cons] at this
                  omega
                have hrest := ih (w.length - 1) (a :: before) (a :: before') hlen
                rw [if_pos (hopens.mpr hpre), if_pos hpre]
                exact splitOn_append_of_eq nl hrepl hrest
              · have hrest := ih 0 (a :: before) (a :: before') (Nat.zero_le _)
                rw [if_neg (hopens.not.mpr hpre), if_neg hpre]
                exact splitOn_cons_of_eq nl ha hrest
  rw [sub, main s 0 [] [] (Nat.zero_le _)]
  conv_rhs => rw [splitOn_eq_cons nl s]
  rfl

end LineOpening
end Backtrack
