import FabricManuals.CheckTropes.Model
import FabricManuals.Lib.RequiredWords

/-! # The words that the gate looks for

Each rule reports only lines that have one of its own words in them, whatever the case.
A line without any of these words is passed by all of them, whatever the locale. -/
set_option autoImplicit false

namespace CheckTropes

open TextFile Backtrack

section Triggers
variable (L : Locale)

def anyCase (w : String) : List (Char → Bool) := w.toList.map fun c a => a == c || (L.variants a).contains c

def Holds (line : Str) (w : String) : Prop := Has (anyCase L w) line

/-- Every line that the rule reports has one of these words. -/
def Rule.Triggered (rule : Rule) (words : List String) : Prop :=
  ∀ line, fires L rule line = true → ∃ w ∈ words, Holds L line w

def parallelismWords : List (List String) :=
  [["not"], ["just", "only", "merely", "simply"], ["because"], ["question", "point", "issue", "goal", "problem"],
    ["not"]]

def boldListWords : List (List String) := [["**"], ["**"], ["**"]]

def servesAsWords : List (List String) := [["serves as "], ["stands as "]]

def fragmentsWords : List (List String) := [["Not "], ["The "]]

def toneWords : List (List String) :=
  [["here"], ["let"], ["think of it "], ["imagine a world where"], ["simple truth", "truth is simple"]]

def attributionWords : List (List String) :=
  [["experts", "researchers", "analysts", "observers", "critics"], ["studies", "reports", "research"]]

def signpostWords : List (List String) :=
  [["in conclusion", "to sum up", "in summary", "to summarize"], ["despite its "]]

def falseRangeWords : List (List String) := [["from "], ["everything", "anything"]]

def clichesWords : List (List String) :=
  [["delv"], ["tapestry"], ["testament to"], ["navigat"], ["game"], ["play"], ["in the realm of"],
    ["unlock"], ["harness"], ["ever-"], ["a wealth of"], ["s worth noting"], ["it bears mentioning"],
    ["needless to say"], ["utiliz"], ["in today"]]

def triggers : List (List String) :=
  parallelismWords ++ boldListWords ++ servesAsWords ++ fragmentsWords ++ toneWords ++ attributionWords ++
    signpostWords ++ falseRangeWords ++ clichesWords

def rowsOf (words : List String) : List (List (Char → Bool)) := words.map (anyCase L)

variable {L}

theorem requires_ci (w : String) : Requires (ci L w.toList) (rowsOf L [w]) :=
  requires_word _ _ (fun _ _ h => Bool.or_eq_true_iff.mpr (Or.inr h)) w.toList

theorem requires_lit (w : String) : Requires (lit w.toList) (rowsOf L [w]) :=
  requires_word _ _ (fun _ _ h => Bool.or_eq_true_iff.mpr (Or.inl h)) w.toList

theorem requires_ciAny : ∀ words : List String, Requires (ciAny L words) (rowsOf L words) := by
  intro words
  induction words with
  | nil =>
      intro c d hd
      obtain ⟨a, ha, -⟩ := (mem_run_set _ c d).mp hd
      cases ha
  | cons w words ih =>
      cases words with
      | nil => exact requires_ci w
      | cons w' words => exact (requires_ci w).alt ih

theorem requires_ciQuoted (before after : String) : Requires (ciQuoted L before after) (rowsOf L [before]) :=
  requires_part _ 0 rfl (requires_ci before)

def Rule.body : Rule → Regex Char
  | .free r => r
  | .opening r => r
  | .item r => r

theorem triggered_of_requires {rule : Rule} {words : List String} (h : Requires rule.body (rowsOf L words)) :
    rule.Triggered L words := by
  have hwhole : Requires (rule.regex L) (rowsOf L words) := by
    cases rule with
    | free r => exact h
    | opening r => exact h.seq_right _
    | item r => exact requires_part _ 2 rfl h
  intro line hfires
  obtain ⟨row, hrow, hhas⟩ := hwhole.search hfires
  obtain ⟨w, hw, rfl⟩ := List.mem_map.mp hrow
  exact ⟨w, hw, hhas⟩

theorem triggered_part {rule : Rule} {parts : List (Regex Char)} (i : Nat) {r : Regex Char} {words : List String}
    (hbody : rule.body = concat parts) (hpart : parts[i]? = some r) (h : Requires r (rowsOf L words)) :
    rule.Triggered L words :=
  triggered_of_requires (hbody ▸ requires_part parts i hpart h)

variable (L)

theorem triggered_parallelism : List.Forall₂ (Rule.Triggered L) (parallelism L) parallelismWords :=
  .cons (triggered_part 2 rfl rfl (requires_ci "not")) <|
  .cons (triggered_part 3 rfl rfl (requires_ciAny _)) <|
  .cons (triggered_part 3 rfl rfl (requires_ci "because")) <|
  .cons (triggered_part 3 rfl rfl (requires_ciAny _)) <|
  .cons (triggered_part 1 rfl rfl (requires_ci "not")) .nil

theorem triggered_boldList : List.Forall₂ (Rule.Triggered L) (boldList L) boldListWords :=
  .cons (triggered_part 0 rfl rfl (requires_lit "**")) <|
  .cons (triggered_part 0 rfl rfl (requires_lit "**")) <|
  .cons (triggered_part 0 rfl rfl (requires_lit "**")) .nil

theorem triggered_servesAs : List.Forall₂ (Rule.Triggered L) (servesAs L) servesAsWords :=
  .cons (triggered_part 1 rfl rfl (requires_ci "serves as ")) <|
  .cons (triggered_part 1 rfl rfl (requires_ci "stands as ")) .nil

theorem triggered_fragments : List.Forall₂ (Rule.Triggered L) (fragments L) fragmentsWords :=
  .cons (triggered_part 1 rfl rfl (requires_lit "Not ")) <|
  .cons (triggered_part 0 rfl rfl (requires_lit "The ")) .nil

theorem triggered_tone : List.Forall₂ (Rule.Triggered L) (tone L) toneWords :=
  .cons (triggered_part 0 rfl rfl (requires_ciQuoted "here" "s ")) <|
  .cons (triggered_part 1 rfl rfl (requires_ciQuoted "let" "s ")) <|
  .cons (triggered_part 1 rfl rfl (requires_ci "think of it ")) <|
  .cons (triggered_part 1 rfl rfl (requires_ci "imagine a world where")) <|
  .cons (triggered_part 2 rfl rfl (requires_ciAny _)) .nil

theorem triggered_attribution : List.Forall₂ (Rule.Triggered L) (attribution L) attributionWords :=
  .cons (triggered_part 1 rfl rfl (requires_ciAny _)) <|
  .cons (triggered_part 1 rfl rfl (requires_ciAny _)) .nil

theorem triggered_signpost : List.Forall₂ (Rule.Triggered L) (signpost L) signpostWords :=
  .cons (triggered_part 0 rfl rfl (requires_ciAny _)) <|
  .cons (triggered_part 1 rfl rfl (requires_ci "despite its ")) .nil

theorem triggered_falseRange : List.Forall₂ (Rule.Triggered L) (falseRange L) falseRangeWords :=
  .cons (triggered_part 0 rfl rfl (requires_ci "from ")) <|
  .cons (triggered_part 1 rfl rfl (requires_ciAny _)) .nil

theorem triggered_cliches : List.Forall₂ (Rule.Triggered L) (cliches L) clichesWords :=
  .cons (triggered_part 1 rfl rfl (requires_ci "delv")) <|
  .cons (triggered_part 1 rfl rfl (requires_ci "tapestry")) <|
  .cons (triggered_part 1 rfl rfl (requires_ci "testament to")) <|
  .cons (triggered_part 1 rfl rfl (requires_ci "navigat")) <|
  .cons (triggered_part 1 rfl rfl (requires_ci "game")) <|
  .cons (triggered_part 1 rfl rfl (requires_ci "play")) <|
  .cons (triggered_part 1 rfl rfl (requires_ci "in the realm of")) <|
  .cons (triggered_part 1 rfl rfl (requires_ci "unlock")) <|
  .cons (triggered_part 1 rfl rfl (requires_ci "harness")) <|
  .cons (triggered_part 1 rfl rfl (requires_ci "ever-")) <|
  .cons (triggered_part 1 rfl rfl (requires_ci "a wealth of")) <|
  .cons (triggered_part 2 rfl rfl (requires_ci "s worth noting")) <|
  .cons (triggered_part 1 rfl rfl (requires_ci "it bears mentioning")) <|
  .cons (triggered_part 1 rfl rfl (requires_ci "needless to say")) <|
  .cons (triggered_part 1 rfl rfl (requires_ci "utiliz")) <|
  .cons (triggered_part 0 rfl rfl (requires_ciQuoted "in today" "s ")) .nil

theorem triggered_rules : List.Forall₂ (Rule.Triggered L) (rules L) triggers := by
  have hfirst := List.rel_append (List.rel_append (triggered_parallelism L) (triggered_boldList L))
    (triggered_servesAs L)
  have hnext := List.rel_append (List.rel_append hfirst (triggered_fragments L)) (triggered_tone L)
  have hmore := List.rel_append (List.rel_append hnext (triggered_attribution L)) (triggered_signpost L)
  exact List.rel_append (List.rel_append hmore (triggered_falseRange L)) (triggered_cliches L)

theorem word_of_hasTell {line : Str} (h : hasTell L line = true) :
    ∃ words ∈ triggers, ∃ w ∈ words, Holds L line w := by
  obtain ⟨rule, hrule, hfires⟩ := List.any_eq_true.mp h
  obtain ⟨i, hi, rfl⟩ := List.mem_iff_getElem.mp hrule
  have hwords : i < triggers.length := (triggered_rules L).length_eq ▸ hi
  exact ⟨triggers[i], List.getElem_mem hwords, (triggered_rules L).get hi hwords line hfires⟩

/-- A character without its case, and any digit as zero. -/
def fold (c : Char) : Char := if isDigit c then '0' else c.toLower

theorem fold_of_ascii : ∀ c : Char, c.toNat < 128 → fold c.toLower = fold c ∧ fold c.toUpper = fold c := by
  have hall : ∀ n < 128, fold (Char.ofNat n).toLower = fold (Char.ofNat n) ∧
      fold (Char.ofNat n).toUpper = fold (Char.ofNat n) := by
    decide +kernel
  intro c hc
  have hself := hall c.toNat hc
  rwa [Char.ofNat_toNat] at hself

variable {L}

theorem map_fold_eq {w v : Str} (h : List.Forall₂ (fun c a => (a == c || (L.variants a).contains c) = true) w v)
    (hw : IsAscii w) (hv : IsAscii v) : w.map fold = v.map fold := by
  induction h with
  | nil => rfl
  | @cons c a w v hca _ ih =>
      obtain ⟨hc, hw⟩ := List.forall_mem_cons.mp hw
      obtain ⟨ha, hv⟩ := List.forall_mem_cons.mp hv
      have hfold : fold c = fold a := by
        rcases Bool.or_eq_true_iff.mp hca with heq | hvariant
        · rw [eq_of_beq heq]
        · rcases (L.variants_ascii a c ha hc).mp (List.contains_iff_mem.mp hvariant) with rfl | rfl
          · exact (fold_of_ascii a ha).1
          · exact (fold_of_ascii a ha).2
      rw [List.map_cons, List.map_cons, hfold, ih hw hv]

/-- No word of a rule can be read in the line. -/
structure Quiet (line : Str) : Prop where
  plain : IsAscii line
  clean : nul ∉ line
  without : ∀ words ∈ triggers, ∀ w ∈ words, ¬ w.toList.map fold <:+: line.map fold

theorem triggers_ascii : ∀ words ∈ triggers, ∀ w ∈ words, IsAscii w.toList := by
  decide +kernel

theorem Quiet.hasTell {line : Str} (h : Quiet line) : hasTell L line = false := by
  rw [← Bool.not_eq_true]
  intro htell
  obtain ⟨words, hwords, w, hw, v, hv, hrow⟩ := word_of_hasTell L htell
  rw [anyCase, List.forall₂_map_left_iff] at hrow
  have hascii : IsAscii v := fun c hc => h.plain c (hv.subset hc)
  have hfold := map_fold_eq hrow (triggers_ascii words hwords w hw) hascii
  refine h.without words hwords w hw ?_
  rw [hfold]
  exact hv.map fold

end Triggers
end CheckTropes
