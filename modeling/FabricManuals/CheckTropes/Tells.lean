import FabricManuals.CheckTropes.Model
import FabricManuals.Lib.Surroundings

/-! # The tells in a line

What a rule reports is a phrase at a place where it may begin.  Apart from the patterns
for list items, which need the marker, a pattern sees of the text around a line no more
than whether a word goes on there; so the tells in two lines are tells in the joined
line, and the other way round but for those that cover the joint. -/
set_option autoImplicit false

namespace CheckTropes

open TextFile Backtrack

section Tells
variable (L : Locale)

/-- Where in a line a rule's phrase may begin, by what stands in front of it. -/
def Rule.MayBegin : Rule → Str → Prop
  | .opening _, p => p = [] ∨ ∃ p' s t, p = p' ++ [s, t] ∧ stop s = true ∧ L.space t = true
  | _, _ => True

/-- A rule without its anchor; an item's pattern is kept whole. -/
def Rule.phrase : Rule → Regex Char
  | .free r => r
  | .opening r => r
  | .item r => (Rule.item r).regex L

/-- The rule's phrase is `w`, between `p` and `q`. -/
structure Tell (rule : Rule) (p w q : Str) : Prop where
  place : rule.MayBegin L p
  taken : Takes (rule.phrase L) p w q

theorem exists_run_opening (r : Regex Char) (p s : Str) :
    (∃ d, d ∈ ((Rule.opening r).regex L).run ⟨p.reverse, s, none⟩) ↔
      (p = [] ∧ ∃ d, d ∈ r.run ⟨p.reverse, s, none⟩) ∨
        ∃ a b s', s = a :: b :: s' ∧ stop a = true ∧ L.space b = true ∧
          ∃ d, d ∈ r.run ⟨(p ++ [a, b]).reverse, s', none⟩ := by
  simp only [Rule.regex, run_seq, run_alt, List.mem_flatMap, List.mem_append, bos, mem_run_look,
    List.isEmpty_iff, List.reverse_eq_nil_iff]
  constructor
  · intro h
    obtain ⟨d, e, ⟨hp, rfl⟩ | ⟨e₁, he₁, he⟩, hd⟩ := h
    · exact Or.inl ⟨hp, d, hd⟩
    · right
      obtain ⟨a, ha, hafter₁, hbefore₁, hgroup₁⟩ := (mem_run_set ..).mp he₁
      obtain ⟨b, hb, hafter, hbefore, hgroup⟩ := (mem_run_set ..).mp he
      refine ⟨a, b, e.after, ?_, ha, hb, d, ?_⟩
      · exact hafter₁.trans (congrArg (a :: ·) hafter)
      · have he : e = ⟨(p ++ [a, b]).reverse, e.after, none⟩ := by
          obtain ⟨before, after, g⟩ := e
          simp only at hbefore hgroup hbefore₁ hgroup₁
          simp [hbefore, hgroup, hbefore₁, hgroup₁]
        rw [← he]
        exact hd
  · intro h
    rcases h with ⟨hp, d, hd⟩ | ⟨a, b, s', rfl, ha, hb, d, hd⟩
    · exact ⟨d, _, Or.inl ⟨hp, rfl⟩, hd⟩
    · refine ⟨d, ⟨b :: a :: p.reverse, s', none⟩, Or.inr ⟨⟨a :: p.reverse, b :: s', none⟩, ?_, ?_⟩, ?_⟩
      · exact (mem_run_set ..).mpr ⟨a, ha, rfl, rfl, rfl⟩
      · exact (mem_run_set ..).mpr ⟨b, hb, rfl, rfl, rfl⟩
      · simpa using hd

/-- A rule fires on a line exactly if the line holds one of its tells. -/
theorem fires_iff (rule : Rule) (line : Str) :
    fires L rule line = true ↔ ∃ p w q, line = p ++ (w ++ q) ∧ Tell L rule p w q := by
  cases rule with
  | free r =>
      rw [fires, search_isSome_iff]
      exact exists_congr fun p => exists_congr fun w => exists_congr fun q =>
        and_congr_right fun _ => ⟨fun h => ⟨trivial, h⟩, Tell.taken⟩
  | item r =>
      rw [fires, search_isSome_iff]
      exact exists_congr fun p => exists_congr fun w => exists_congr fun q =>
        and_congr_right fun _ => ⟨fun h => ⟨trivial, h⟩, Tell.taken⟩
  | opening r =>
      rw [fires, search_isSome_iff_exists]
      constructor
      · intro h
        obtain ⟨p, post, rfl, hrun⟩ := h
        rcases (exists_run_opening L r p post).mp hrun with
          ⟨hp, d, hd⟩ | ⟨a, b, post, rfl, ha, hb, d, hd⟩
        · obtain ⟨w, rfl, htakes⟩ := takes_of_mem hd
          exact ⟨p, w, d.after, rfl, Or.inl hp, htakes⟩
        · obtain ⟨w, rfl, htakes⟩ := takes_of_mem hd
          refine ⟨p ++ [a, b], w, d.after, ?_, Or.inr ⟨p, a, b, rfl, ha, hb⟩, htakes⟩
          rw [List.append_assoc]
          rfl
      · intro h
        obtain ⟨p, w, q, rfl, hplace, g, hrun⟩ := h
        rcases hplace with hp | ⟨p, a, b, rfl, ha, hb⟩
        · exact ⟨p, w ++ q, rfl, (exists_run_opening L r p (w ++ q)).mpr (Or.inl ⟨hp, _, hrun⟩)⟩
        · refine ⟨p, a :: b :: (w ++ q), by rw [List.append_assoc]; rfl, ?_⟩
          exact (exists_run_opening L r p _).mpr (Or.inr ⟨a, b, _, rfl, ha, hb, _, hrun⟩)

end Tells

section Locals
variable (L : Locale) (fits : Str → Str → Prop)

theorem local_ci (w : Str) : Local fits (ci L w) := by
  have hsets : ci L w = concat ((w.map fun c => fun a => (L.variants a).contains c).map .set) := by
    rw [List.map_map]
    rfl
  rw [hsets]
  exact local_sets fits _

theorem local_lit (w : Str) : Local fits (lit w) := by
  have hsets : lit w = concat ((w.map fun a => (· == a)).map Regex.set) := by
    rw [List.map_map]
    rfl
  rw [hsets]
  exact local_sets fits _

theorem local_anyOf_iff : ∀ rs : List (Regex Char),
    Local fits (anyOf rs) ↔ ∀ r ∈ rs, Local fits r := by
  intro rs
  induction rs with
  | nil => exact iff_of_true trivial fun r hr => absurd hr List.not_mem_nil
  | cons r rest ih =>
      rw [List.forall_mem_cons, ← ih]
      cases rest with
      | nil => exact (and_iff_left trivial).symm
      | cons r' rest => exact Iff.rfl

theorem local_ciAny (ws : List String) : Local fits (ciAny L ws) := by
  rw [ciAny, local_anyOf_iff]
  intro r hr
  obtain ⟨w, -, rfl⟩ := List.mem_map.mp hr
  exact local_ci L fits w.toList

theorem local_atMost {r : Regex Char} (hr : Local fits r) : ∀ n, Local fits (atMost n r) := by
  intro n
  induction n with
  | zero => trivial
  | succ n ih => exact ⟨⟨hr, ih⟩, trivial⟩

theorem local_upToN {r : Regex Char} (hr : Local fits r) (n : Nat) : Local fits (upToN n r) :=
  ⟨hr, local_atMost fits hr (n - 1)⟩

theorem local_ciQuoted (before after : String) : Local fits (ciQuoted L before after) :=
  ⟨local_ci L fits _, ⟨local_ci L fits _, trivial⟩, local_ci L fits _, trivial⟩

end Locals

section Line
variable (L : Locale)

def Rule.IsLocal : Rule → Prop
  | .item _ => True
  | rule => Local (Apart L.word) (rule.phrase L)

theorem isLocal_rules : ∀ rule ∈ rules L, rule.IsLocal L := by
  have hedge : Local (Apart L.word) (edge L) := local_wordBoundary L.word
  have hset : ∀ p, Local (Apart L.word) (.set p) := fun p => trivial
  have hstar : ∀ p, Local (Apart L.word) (.star true (.set p)) := fun p => trivial
  have hplus : ∀ p, Local (Apart L.word) (plus true (.set p)) := fun p => ⟨trivial, trivial⟩
  have hopt : ∀ r, Local (Apart L.word) (opt r) ↔ Local (Apart L.word) r := fun r => and_iff_left trivial
  simp only [rules, parallelism, boldList, servesAs, fragments, tone, attribution, signpost,
    falseRange, cliches, gap, inSentence, letters, ciLetter, ciRange, List.forall_mem_append,
    List.forall_mem_cons, List.not_mem_nil, IsEmpty.forall_iff, implies_true, Rule.IsLocal, Rule.phrase,
    local_concat_cons, local_concat_nil, local_ci, local_lit, local_ciAny, local_ciQuoted,
    local_anyOf_iff, local_upToN, local_atMost, hopt, hedge, hset, hstar, hplus, and_self]

variable {L}

theorem word_blank : L.word ' ' = false := by
  rw [L.word_ascii ' ' (by decide)]
  rfl

theorem apart_before (l : Str) : Apart L.word [] (' ' :: l) := ⟨rfl, word_blank⟩

theorem apart_behind (l : Str) : Apart L.word (' ' :: l) [] := ⟨word_blank, rfl⟩

def EndsSentence (l : Str) : Prop := ∃ l' c, l = l' ++ [c] ∧ stop c = true

/-- Where a phrase may begin in a line, it may with another line in front, unless it
begins the line and no sentence ends before it. -/
theorem mayBegin_join (rule : Rule) (l p : Str) (h : rule.MayBegin L p)
    (hfront : p = [] → ∀ r, rule = .opening r → EndsSentence l) :
    rule.MayBegin L (l ++ ' ' :: p) := by
  cases rule with
  | free r => trivial
  | item r => trivial
  | opening r =>
      right
      rcases h with rfl | ⟨p, a, b, rfl, ha, hb⟩
      · obtain ⟨l', c, rfl, hc⟩ := hfront rfl r rfl
        refine ⟨l', c, ' ', by rw [List.append_assoc]; rfl, hc, ?_⟩
        rw [L.space_ascii ' ' (by decide)]
        rfl
      · exact ⟨l ++ ' ' :: p, a, b, by rw [List.append_assoc]; rfl, ha, hb⟩

theorem mayBegin_of_join (rule : Rule) (l p : Str) (h : rule.MayBegin L (l ++ ' ' :: p)) :
    rule.MayBegin L p := by
  cases rule with
  | free r => trivial
  | item r => trivial
  | opening r =>
      rcases h with h | ⟨u, a, b, h, ha, hb⟩
      · exact absurd h (by simp)
      rcases List.eq_nil_or_concat p with rfl | ⟨p, y, rfl⟩
      · exact Or.inl rfl
      rcases List.eq_nil_or_concat p with rfl | ⟨p, x, rfl⟩
      · -- the space would end the sentence
        have hlast : l ++ [' ', y] = u ++ [a, b] := by simpa using h
        have hpair := (List.append_inj' hlast rfl).2
        rw [← (List.cons.inj hpair).1] at ha
        exact absurd ha (by decide)
      · have hlast : (l ++ ' ' :: p) ++ [x, y] = u ++ [a, b] := by simpa using h
        have hpair := (List.append_inj' hlast rfl).2
        exact Or.inr ⟨p, a, b, by rw [← hpair]; simp, ha, hb⟩

variable (L)

/-- The space between the lines lies in no tell, and no phrase that has to open a
sentence begins the second line unless a sentence ends with the first. -/
structure Clear (l₁ l₂ : Str) : Prop where
  whole : ∀ rule ∈ rules L, ∀ p w q, l₁ ++ ' ' :: l₂ = p ++ (w ++ q) → Tell L rule p w q →
    ¬ (p.length ≤ l₁.length ∧ l₁.length < p.length + w.length)
  begins : ∀ r, Rule.opening r ∈ rules L → ∀ w q, l₂ = w ++ q → Tell L (.opening r) [] w q →
    EndsSentence l₁

variable {L}

theorem fires_join {rule : Rule} (hrule : rule ∈ rules L) (hlocal : Local (Apart L.word) (rule.phrase L))
    {l₁ l₂ : Str} (h : Clear L l₁ l₂) :
    fires L rule (l₁ ++ ' ' :: l₂) = true ↔ fires L rule l₁ = true ∨ fires L rule l₂ = true := by
  simp only [fires_iff]
  constructor
  · intro hjoined
    obtain ⟨p, w, q, hsplit, htell⟩ := hjoined
    rcases three_sides hsplit with ⟨q', rfl, hl⟩ | ⟨p', rfl, hl⟩ | hcover
    · exact Or.inl ⟨p, w, q', hl, htell.place, (takes_iff_left hlocal (apart_before l₂)).mp htell.taken⟩
    · exact Or.inr ⟨p', w, q, hl, mayBegin_of_join rule l₁ p' htell.place,
        (takes_iff_right hlocal (apart_behind l₁.reverse)).mp htell.taken⟩
    · exact absurd hcover (h.whole rule hrule p w q hsplit htell)
  · intro hline
    rcases hline with ⟨p, w, q, rfl, htell⟩ | ⟨p, w, q, rfl, htell⟩
    · refine ⟨p, w, q ++ ' ' :: l₂, ?_, htell.place,
        (takes_iff_left hlocal (apart_before l₂)).mpr htell.taken⟩
      rw [List.append_assoc, List.append_assoc]
    · refine ⟨l₁ ++ ' ' :: p, w, q, ?_, mayBegin_join rule l₁ p htell.place ?_,
        (takes_iff_right hlocal (apart_behind l₁.reverse)).mpr htell.taken⟩
      · rw [List.append_assoc]
        rfl
      · intro hp r hr
        subst hp hr
        exact h.begins r hrule w q rfl htell

theorem fires_item {r : Regex Char} {line : Str} (h : isItem L line = false) :
    fires L (.item r) line = false := by
  rw [← Bool.not_eq_true] at h ⊢
  intro hfires
  apply h
  obtain ⟨p, post, rfl, d, hd⟩ := (search_isSome_iff_exists ..).mp hfires
  rw [Rule.regex, run_concat_cons, List.mem_flatMap] at hd
  obtain ⟨mark, hmark, hd⟩ := hd
  rw [run_concat_cons, List.mem_flatMap] at hd
  obtain ⟨blanks, hblanks, -⟩ := hd
  rw [plus, run_seq, List.mem_flatMap] at hblanks
  obtain ⟨blank, hblank, -⟩ := hblanks
  have hp : p = [] := by
    rw [itemMark, run_concat_cons, List.mem_flatMap] at hmark
    obtain ⟨start, hstart, -⟩ := hmark
    simpa [bos] using ((mem_run_look ..).mp hstart).1
  subst hp
  rw [isItem, first_isSome_iff]
  exact ⟨blank, List.mem_flatMap.mpr ⟨mark, hmark, hblank⟩⟩

theorem hasTell_join {l₁ l₂ : Str} (h : Clear L l₁ l₂) (h₁ : isItem L l₁ = false)
    (h₂ : isItem L l₂ = false) (hjoined : isItem L (l₁ ++ ' ' :: l₂) = false) :
    hasTell L (l₁ ++ ' ' :: l₂) = true ↔ hasTell L l₁ = true ∨ hasTell L l₂ = true := by
  have hrule : ∀ rule ∈ rules L, (fires L rule (l₁ ++ ' ' :: l₂) = true ↔
      fires L rule l₁ = true ∨ fires L rule l₂ = true) := by
    intro rule hrule
    have hlocal := isLocal_rules L rule hrule
    cases rule with
    | free r => exact fires_join hrule hlocal h
    | opening r => exact fires_join hrule hlocal h
    | item r => rw [fires_item h₁, fires_item h₂, fires_item hjoined]; simp
  simp only [hasTell, List.any_eq_true, ← exists_or, ← and_or_left]
  exact exists_congr fun rule => and_congr_right fun hmem => hrule rule hmem

end Line
end CheckTropes
