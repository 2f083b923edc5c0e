import FabricManuals.DecisionMeta.Title

/-! # Titles as YAML writes them

The front matter is YAML, and the metadata reader takes the title from it as a
scalar.  `parseTitle_iff` says for which scalars the filter reads the same title. -/
set_option autoImplicit false

namespace DecisionMeta

open TextFile Backtrack PosixPath

inductive Style
  | double
  | single
  | plain
deriving DecidableEq

def escapeDouble (c : Char) : Str := if c = '"' ∨ c = '\\' then ['\\', c] else [c]
def escapeSingle (c : Char) : Str := if c = '\'' then ['\'', '\''] else [c]

def scalar (style : Style) (title : Str) : Str :=
  match style with
  | .double => '"' :: title.flatMap escapeDouble ++ ['"']
  | .single => '\'' :: title.flatMap escapeSingle ++ ['\'']
  | .plain => title

structure IsTitle (title : Str) : Prop where
  ne_nil : title ≠ []
  oneLine : '\n' ∉ title ∧ '\r' ∉ title
  trimmed : title.head? ≠ some ' ' ∧ title.getLast? ≠ some ' '

def indicators : Str := "-?:,[]{}#&*!|>'\"%@`".toList

def isBlank (c : Char) : Bool := c == ' ' || c == '\t'

structure PlainSafe (title : Str) : Prop where
  first : ∀ c rest, title = c :: rest → isBlank c = false ∧
    (c ∈ indicators → c ∈ "-?:".toList ∧ ∃ d ∈ rest.head?, isBlank d = false)
  last : ∀ c ∈ title.getLast?, isBlank c = false
  colon : ∀ pre post, title = pre ++ ':' :: post → ∃ d ∈ post.head?, isBlank d = false
  hash : ∀ pre post, title = pre ++ '#' :: post → ∃ d ∈ pre.getLast?, isBlank d = false

def IsComment (tail : Str) : Prop :=
  tail = [] ∨ ∃ n text, tail = List.replicate (n + 1) ' ' ++ '#' :: text ∧ '\n' ∉ text

def titleLine (gap : Nat) (style : Style) (title tail : Str) : Str :=
  "title:".toList ++ (List.replicate (gap + 1) ' ' ++ (scalar style title ++ tail))

/-- On this line the filter reads the title, whatever follows. -/
def ReadsTitle (pre : List Str) (line title : Str) : Prop :=
  ∀ post body fallback, (∀ l ∈ post, IsField l) →
    parseTitle (page (pre ++ line :: post) body) fallback = title

/-- The scalar is the title between its quotes, or the title with no white space of any
kind at its ends. -/
def Verbatim (style : Style) (title : Str) : Prop :=
  match style with
  | .double => '"' ∉ title ∧ '\\' ∉ title
  | .single => '\'' ∉ title
  | .plain => (∀ c ∈ title.head?, isSpace c = false) ∧ ∀ c ∈ title.getLast?, isSpace c = false

/-! ## Escapes -/

theorem flatMap_eq_self_iff {f : Char → Str} (hf : ∀ c, f c = [c] ∨ 2 ≤ (f c).length) : ∀ s : Str,
    s.flatMap f = s ↔ ∀ c ∈ s, f c = [c] := by
  have hlen : ∀ s : Str, s.length ≤ (s.flatMap f).length := by
    intro s
    induction s with
    | nil => exact Nat.le_refl _
    | cons c s ih =>
        rw [List.flatMap_cons, List.length_append, List.length_cons]
        rcases hf c with h | h
        · rw [h, List.length_singleton]; omega
        · omega
  intro s
  induction s with
  | nil => simp
  | cons c s ih =>
      rw [List.flatMap_cons, List.forall_mem_cons]
      constructor
      · intro h
        have hc : f c = [c] := by
          refine (hf c).resolve_right fun hlong => ?_
          have := congrArg List.length h
          rw [List.length_append, List.length_cons] at this
          have := hlen s
          omega
        rw [hc] at h
        exact ⟨hc, ih.mp (List.cons.inj h).2⟩
      · intro h
        rw [h.1, ih.mpr h.2]
        rfl

theorem escapeDouble_eq (c : Char) : escapeDouble c = [c] ↔ c ≠ '"' ∧ c ≠ '\\' := by
  unfold escapeDouble
  split
  · next h => simp; tauto
  · next h => simpa using h

theorem escapeSingle_eq (c : Char) : escapeSingle c = [c] ↔ c ≠ '\'' := by
  unfold escapeSingle
  split
  · next h => simp [h]
  · next h => simpa using h

theorem forall_ne_iff {c : Char} {s : Str} : (∀ a ∈ s, a ≠ c) ↔ c ∉ s :=
  ⟨fun h hc => h c hc rfl, fun h _ ha e => h (e ▸ ha)⟩

theorem flatMap_escapeDouble_iff (title : Str) :
    title.flatMap escapeDouble = title ↔ '"' ∉ title ∧ '\\' ∉ title := by
  have hf : ∀ c, escapeDouble c = [c] ∨ 2 ≤ (escapeDouble c).length := by
    intro c
    unfold escapeDouble
    split
    · exact Or.inr (Nat.le_refl 2)
    · exact Or.inl rfl
  rw [flatMap_eq_self_iff hf, ← forall_ne_iff, ← forall_ne_iff, ← forall₂_and]
  exact forall₂_congr fun c _ => escapeDouble_eq c

theorem flatMap_escapeSingle_iff (title : Str) :
    title.flatMap escapeSingle = title ↔ '\'' ∉ title := by
  have hf : ∀ c, escapeSingle c = [c] ∨ 2 ≤ (escapeSingle c).length := by
    intro c
    unfold escapeSingle
    split
    · exact Or.inr (Nat.le_refl 2)
    · exact Or.inl rfl
  rw [flatMap_eq_self_iff hf, ← forall_ne_iff]
  exact forall₂_congr fun c _ => escapeSingle_eq c

theorem count_hash_flatMap {f : Char → Str} (hf : ∀ c, (f c).count '#' = [c].count '#') : ∀ s : Str,
    (s.flatMap f).count '#' = s.count '#' := by
  intro s
  induction s with
  | nil => rfl
  | cons c s ih => rw [List.flatMap_cons, List.count_append, hf, ih, ← List.count_append]; rfl

theorem count_hash_scalar (style : Style) (title : Str) :
    (scalar style title).count '#' = title.count '#' := by
  cases style with
  | double =>
      have hf : ∀ c, (escapeDouble c).count '#' = [c].count '#' := by
        intro c
        unfold escapeDouble
        split
        · rw [List.count_cons_of_ne (by decide)]
        · rfl
      rw [scalar, List.count_append, List.count_cons_of_ne (by decide), count_hash_flatMap hf]
      rfl
  | single =>
      have hf : ∀ c, (escapeSingle c).count '#' = [c].count '#' := by
        intro c
        unfold escapeSingle
        split
        · next h => rw [h]; rfl
        · rfl
      rw [scalar, List.count_append, List.count_cons_of_ne (by decide), count_hash_flatMap hf]
      rfl
  | plain => rfl

theorem newline_notMem_scalar {style : Style} {title : Str} (h : '\n' ∉ title) :
    '\n' ∉ scalar style title := by
  cases style with
  | double =>
      simp only [scalar, List.mem_append, List.mem_cons, List.mem_flatMap, escapeDouble]
      intro hmem
      rcases hmem with (hmem | ⟨c, hc, hmem⟩) | hmem
      · cases hmem
      · split at hmem
        · rcases List.mem_cons.mp hmem with hmem | hmem
          · cases hmem
          · exact h (List.mem_singleton.mp hmem ▸ hc)
        · exact h (List.mem_singleton.mp hmem ▸ hc)
      · simp at hmem
  | single =>
      simp only [scalar, List.mem_append, List.mem_cons, List.mem_flatMap, escapeSingle]
      intro hmem
      rcases hmem with (hmem | ⟨c, hc, hmem⟩) | hmem
      · cases hmem
      · split at hmem
        · simp at hmem
        · exact h (List.mem_singleton.mp hmem ▸ hc)
      · simp at hmem
  | plain => exact h

theorem core_quoted {q : Char} (hq : q = '"' ∨ q = '\'') {s : Str} (hs : '\n' ∉ q :: s ++ [q]) :
    Core (q :: s ++ [q]) := by
  have hspace : isSpace q = false := by
    rcases hq with rfl | rfl
    · decide
    · decide
  exact ⟨hs, ⟨q, rfl, hspace⟩, ⟨q, by rw [Option.mem_def, List.getLast?_concat], hspace⟩⟩

theorem PlainSafe.unquoted {title : Str} (h : PlainSafe title) : unquote title = title := by
  apply unquote_bare
  intro c hc
  obtain ⟨rest, rfl⟩ : ∃ rest, title = c :: rest := by
    cases title with
    | nil => cases hc
    | cons a rest => exact ⟨rest, by rw [Option.some.inj hc]⟩
  obtain ⟨-, hind⟩ := h.first c rest rfl
  constructor
  · intro hc
    exact absurd (hind (by rw [hc]; decide)).1 (by rw [hc]; decide)
  · intro hc
    exact absurd (hind (by rw [hc]; decide)).1 (by rw [hc]; decide)

theorem core_iff_verbatim {title : Str} (h : IsTitle title) :
    Core title ↔ Verbatim .plain title := by
  constructor
  · intro hcore
    obtain ⟨c, hc, hspace⟩ := hcore.first
    obtain ⟨z, hz, hzspace⟩ := hcore.last
    exact ⟨fun a ha => by rwa [Option.mem_unique ha hc], fun a ha => by rwa [Option.mem_unique ha hz]⟩
  · intro hv
    obtain ⟨c, rest, hcons⟩ := List.exists_cons_of_ne_nil h.ne_nil
    have hhead : c ∈ title.head? := by rw [hcons]; rfl
    have hlast := List.getLast?_eq_some_getLast h.ne_nil
    exact ⟨h.oneLine.1, ⟨c, hhead, hv.1 c hhead⟩, ⟨_, hlast, hv.2 _ hlast⟩⟩

/-! ## The title that is read -/

theorem IsComment.oneLine {tail : Str} (h : IsComment tail) : '\n' ∉ tail := by
  rcases h with rfl | ⟨n, text, rfl, htext⟩
  · simp
  · simp [List.mem_replicate, htext]

theorem titleLine_oneLine {title tail : Str} (htitle : IsTitle title) (htail : IsComment tail)
    (gap : Nat) (style : Style) :
    '\n' ∉ titleLine gap style title tail ∧ ¬ "#".toList <+: titleLine gap style title tail := by
  constructor
  · intro hmem
    rcases List.mem_append.mp hmem with hmem | hmem
    · exact absurd hmem (by decide)
    rcases List.mem_append.mp hmem with hmem | hmem
    · cases List.eq_of_mem_replicate hmem
    rcases List.mem_append.mp hmem with hmem | hmem
    · exact newline_notMem_scalar htitle.oneLine.1 hmem
    · exact htail.oneLine hmem
  · rintro ⟨rest, h⟩
    cases h

theorem comment_is_read {pre : List Str} {gap : Nat} {style : Style} {title tail : Str}
    (htitle : IsTitle title) (htail : IsComment tail) (hpre : ∀ l ∈ pre, IsField l)
    (hfence : ∀ l ∈ pre, isFence l = false)
    (h : ReadsTitle pre (titleLine gap style title tail) title) : tail = [] := by
  rcases htail with htail | ⟨n, text, rfl, htext⟩
  · exact htail
  exfalso
  have hline : '\n' ∉ List.replicate (gap + 1) ' ' ++
      (scalar style title ++ (List.replicate (n + 1) ' ' ++ '#' :: text)) := by
    simp [List.mem_replicate, newline_notMem_scalar htitle.oneLine.1, htext]
  have hread := h [] [] [] (by simp)
  unfold titleLine at hread
  rw [parseTitle_page hpre hfence (by simp) hline ⟨'#', by simp, by decide⟩] at hread
  have hcount := congrArg (List.count '#') hread
  rw [count_hash_unquote_strip, List.count_append, List.count_append, List.count_append,
    count_hash_scalar, List.count_cons_self] at hcount
  omega

theorem reads_iff_of_core {pre : List Str} {gap : Nat} {style : Style} {title : Str}
    (hpre : ∀ l ∈ pre, IsField l) (hfence : ∀ l ∈ pre, isFence l = false)
    (hcore : Core (scalar style title)) :
    ReadsTitle pre (titleLine gap style title []) title ↔ unquote (scalar style title) = title := by
  have hline : '\n' ∉ List.replicate (gap + 1) ' ' ++ scalar style title := by
    simp [List.mem_replicate, hcore.oneLine]
  obtain ⟨c, hc, hspace⟩ := hcore.first
  have hsome : ∃ c ∈ List.replicate (gap + 1) ' ' ++ scalar style title, isSpace c = false :=
    ⟨c, List.mem_append_right _ (List.mem_of_mem_head? hc), hspace⟩
  have hread : ∀ post body fallback, (∀ l ∈ post, IsField l) →
      parseTitle (page (pre ++ titleLine gap style title [] :: post) body) fallback =
        unquote (scalar style title) := by
    intro post body fallback hpost
    unfold titleLine
    rw [List.append_nil, parseTitle_page hpre hfence hpost hline hsome, strip_gap, strip_core hcore]
  constructor
  · intro h
    exact (hread [] [] [] (by simp)).symm.trans (h [] [] [] (by simp))
  · intro h post body fallback hpost
    exact (hread post body fallback hpost).trans h

theorem plain_is_stripped {pre : List Str} {gap : Nat} {title : Str} (htitle : IsTitle title)
    (hpre : ∀ l ∈ pre, IsField l) (hfence : ∀ l ∈ pre, isFence l = false)
    (h : ReadsTitle pre (titleLine gap .plain title []) title) : Core title := by
  have hline : '\n' ∉ List.replicate (gap + 1) ' ' ++ title := by
    simp [List.mem_replicate, htitle.oneLine.1]
  unfold titleLine at h
  rw [List.append_nil] at h
  by_cases hsome : ∃ c ∈ title, isSpace c = false
  · have hsome' : ∃ c ∈ List.replicate (gap + 1) ' ' ++ title, isSpace c = false := by
      obtain ⟨c, hc, hspace⟩ := hsome
      exact ⟨c, List.mem_append_right _ hc, hspace⟩
    have hread := h [] [] [] (by simp)
    rw [scalar, parseTitle_page hpre hfence (by simp) hline hsome', strip_gap] at hread
    have hself : strip title = title := by
      by_contra hne
      have hshort := length_strip_lt hne
      have hle := length_unquote_le (strip title)
      rw [hread] at hle
      omega
    have hcore := core_strip htitle.oneLine.1 hsome
    rwa [hself] at hcore
  · -- white space alone is no title, so the fallback shows
    exfalso
    have hspace : ∀ c ∈ List.replicate (gap + 1) ' ' ++ title, isSpace c = true := by
      intro c hc
      rcases List.mem_append.mp hc with hc | hc
      · rw [List.eq_of_mem_replicate hc]; decide
      · by_contra hno
        exact hsome ⟨c, hc, by simpa using hno⟩
    have hread := h [] [] (title ++ ['x']) (by simp)
    rcases parseTitle_blank hpre hfence hline hspace (title ++ ['x']) with hblank | hblank
    · exact htitle.ne_nil (hread.symm.trans hblank)
    · have := congrArg List.length (hread.symm.trans hblank)
      simp at this

theorem reads_iff_verbatim {pre : List Str} {gap : Nat} {style : Style} {title : Str}
    (htitle : IsTitle title) (hplain : style = .plain → PlainSafe title)
    (hpre : ∀ l ∈ pre, IsField l) (hfence : ∀ l ∈ pre, isFence l = false) :
    ReadsTitle pre (titleLine gap style title []) title ↔ Verbatim style title := by
  have hscalar : '\n' ∉ scalar style title := newline_notMem_scalar htitle.oneLine.1
  cases style with
  | double =>
      have hcore : Core (scalar .double title) := core_quoted (Or.inl rfl) hscalar
      rw [reads_iff_of_core hpre hfence hcore, scalar, unquote_quoted (Or.inl rfl)]
      exact flatMap_escapeDouble_iff title
  | single =>
      have hcore : Core (scalar .single title) := core_quoted (Or.inr rfl) hscalar
      rw [reads_iff_of_core hpre hfence hcore, scalar, unquote_quoted (Or.inr rfl)]
      exact flatMap_escapeSingle_iff title
  | plain =>
      rw [← core_iff_verbatim htitle]
      constructor
      · exact plain_is_stripped htitle hpre hfence
      · intro hcore
        exact (@reads_iff_of_core pre gap .plain title hpre hfence hcore).mpr (hplain rfl).unquoted

/-- The filter reads the title exactly if no comment follows it, the scalar is verbatim
and no field above it begins like a fence. -/
theorem parseTitle_iff (style : Style) (title tail : Str) (gap : Nat) (pre : List Str)
    (htitle : IsTitle title) (hplain : style = .plain → PlainSafe title) (htail : IsComment tail)
    (hpre : ∀ l ∈ pre, IsField l) :
    ReadsTitle pre (titleLine gap style title tail) title ↔
      tail = [] ∧ Verbatim style title ∧ ∀ l ∈ pre, isFence l = false := by
  constructor
  · intro h
    have hfence : ∀ l ∈ pre, isFence l = false := by
      by_contra hno
      push Not at hno
      obtain ⟨l, hl, hfence⟩ := hno
      have hline := titleLine_oneLine htitle htail gap style
      have hread := h [] [] (title ++ ['x']) (by simp)
      rw [parseTitle_fenced hpre ⟨l, hl, by simpa using hfence⟩ hline] at hread
      have := congrArg List.length hread
      simp at this
    obtain rfl := comment_is_read htitle htail hpre hfence h
    exact ⟨rfl, (reads_iff_verbatim htitle hplain hpre hfence).mp h, hfence⟩
  · intro h
    obtain ⟨rfl, hv, hfence⟩ := h
    exact (reads_iff_verbatim htitle hplain hpre hfence).mpr hv

theorem parseTitle_iff_slug :
    ReadsTitle ["rfd: \"2001\"".toList]
      (titleLine 0 .double "RFD 2001: A slug".toList []) "RFD 2001: A slug".toList :=
  (parseTitle_iff .double "RFD 2001: A slug".toList [] 0 ["rfd: \"2001\"".toList]
    ⟨by decide, by decide, by decide⟩ (fun h => by cases h) (Or.inl rfl)
    (by
      intro l hl
      rw [List.mem_singleton.mp hl]
      exact ⟨by decide, by decide, by decide⟩)).mpr
    ⟨rfl, by unfold Verbatim; decide, by decide⟩

/-- A title with a quoted word, written as YAML asks for it. -/
theorem escaped_title_is_lost :
    parseTitle (page [titleLine 0 .double "Say \"hi\"".toList []] []) "index".toList =
        "Say \\\"hi\\\"".toList ∧
      ¬ ∀ (style : Style) (title tail : Str) (gap : Nat) (pre : List Str), IsTitle title →
        (style = .plain → PlainSafe title) → IsComment tail → (∀ l ∈ pre, IsField l) →
          ReadsTitle pre (titleLine gap style title tail) title := by
  have hread : parseTitle (page [titleLine 0 .double "Say \"hi\"".toList []] []) "index".toList =
      "Say \\\"hi\\\"".toList := by
    decide +kernel
  refine ⟨hread, fun h => ?_⟩
  have htitle := h .double "Say \"hi\"".toList [] 0 [] ⟨by decide, by decide, by decide⟩
    (fun h => by cases h) (Or.inl rfl) (by simp) [] [] "index".toList (by simp)
  rw [List.nil_append, hread] at htitle
  exact absurd htitle (by decide)

end DecisionMeta
