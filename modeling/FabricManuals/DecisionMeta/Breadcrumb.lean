import FabricManuals.DecisionMeta.Urls

/-! # The trail back to the front page

The links of the trail climb as many steps as the page has directories above it. -/
set_option autoImplicit false

namespace DecisionMeta

open TextFile FileTree PosixPath

/-- A page key as its segments, one or more names. -/
structure PageKey where
  segs : List Str
  ne_nil : segs ≠ []
  plain : ∀ s ∈ segs, Plain s

namespace PageKey

def key (K : PageKey) : Str := joinSegs K.segs

def dir (K : PageKey) : List Str := K.segs.dropLast

def InSection (K : PageKey) (s name : Str) : Prop :=
  (∃ rest, rest ≠ [] ∧ K.segs = s :: rest) ∧ SECTIONS.lookup s = some name

end PageKey

def separator : List Inline := [.space, .str "›".toList, .space]

/-- Manuals, the section where the page is in one, and the title; the links lead to the
front page and to the page of the section. -/
inductive Trail (K : PageKey) (title : Str) : List Inline → Prop
  | top (home : Str) (hhome : urlTarget K.dir home = ["index.html".toList])
      (hnone : ∀ s name, ¬ K.InSection s name) :
      Trail K title ([.link [.str "Manuals".toList] home] ++ separator ++ [.str title])
  | inSection (home s name url : Str) (hhome : urlTarget K.dir home = ["index.html".toList])
      (hsection : K.InSection s name)
      (hurl : urlTarget K.dir url = ["pages".toList, s ++ ".html".toList]) :
      Trail K title ([.link [.str "Manuals".toList] home] ++ separator ++
        [.link [.str name] url] ++ separator ++ [.str title])

def ups (dir : List Str) : Str := dir.flatMap fun _ => "../".toList

theorem split_ups (dir : List Str) (w : Str) :
    split (ups dir ++ w) = List.replicate dir.length dotdot ++ split w := by
  induction dir with
  | nil => rfl
  | cons d rest ih =>
      have hstep : ups (d :: rest) ++ w = dotdot ++ '/' :: (ups rest ++ w) := rfl
      rw [hstep, split_append_slash, ih, List.length_cons, List.replicate_succ]
      rfl

theorem urlTarget_ups (dir : List Str) (w : Str) : urlTarget dir (ups dir ++ w) = walk [] (split w) := by
  rw [urlTarget, split_ups, walk_append, walk_ups, Nat.sub_self, List.take_zero]

theorem climb_eq (K : PageKey) :
    ((split (dirname K.key)).filter (· ≠ [])).flatMap (fun _ => "../".toList) = ups K.dir := by
  have hparts : (split (dirname K.key)).filter (· ≠ []) = K.dir := by
    rw [PageKey.key, dirname_joinSegs K.plain]
    exact parts_joinSegs fun s hs => K.plain s (List.mem_of_mem_dropLast hs)
  rw [hparts, ups]

theorem slash_mem_key_iff (K : PageKey) : '/' ∈ K.key ↔ ∃ s rest, rest ≠ [] ∧ K.segs = s :: rest := by
  obtain ⟨s, rest, hsegs⟩ := List.exists_cons_of_ne_nil K.ne_nil
  rw [PageKey.key, hsegs]
  cases rest with
  | nil =>
      have hs : '/' ∉ s := (K.plain s (by rw [hsegs]; simp)).no_slash
      simp [joinSegs, hs]
  | cons t rest =>
      rw [joinSegs_cons_cons]
      simp

theorem headD_split_key {K : PageKey} {s : Str} {rest : List Str} (h : K.segs = s :: rest) :
    (split K.key).headD [] = s := by
  rw [PageKey.key, split_joinSegs K.ne_nil fun x hx => (K.plain x hx).no_slash, h]
  rfl

theorem lookup_eq_some_iff (K : PageKey) (name : Str) :
    (if '/' ∈ K.key then SECTIONS.lookup ((split K.key).headD []) else none) = some name ↔
      K.InSection ((split K.key).headD []) name := by
  rw [PageKey.InSection]
  by_cases hslash : '/' ∈ K.key
  · obtain ⟨s, rest, hne, hsegs⟩ := (slash_mem_key_iff K).mp hslash
    rw [if_pos hslash, headD_split_key hsegs]
    exact ⟨fun h => ⟨⟨rest, hne, hsegs⟩, h⟩, fun h => h.2⟩
  · rw [if_neg hslash]
    constructor
    · intro h
      cases h
    · rintro ⟨⟨rest, hne, hsegs⟩, -⟩
      exact absurd ((slash_mem_key_iff K).mpr ⟨_, rest, hne, hsegs⟩) hslash

theorem PageKey.InSection.seg {K : PageKey} {s name : Str} (h : K.InSection s name) :
    (split K.key).headD [] = s := by
  obtain ⟨⟨rest, -, hsegs⟩, -⟩ := h
  exact headD_split_key hsegs

theorem section_target {s name : Str} (h : SECTIONS.lookup s = some name) :
    walk [] (split (SECTION_PAGE_DIR ++ s ++ ".html".toList)) = ["pages".toList, s ++ ".html".toList] := by
  have hmem : (s, name) ∈ SECTIONS := by
    obtain ⟨before, after, hsections, -⟩ := List.lookup_eq_some_iff.mp h
    rw [hsections]
    exact List.mem_append_right _ (List.mem_cons_self ..)
  have hs : s = "rfd".toList ∨ s = "changelog".toList := by
    rcases List.mem_cons.mp hmem with heq | hmem
    · exact Or.inl (Prod.mk.inj heq).1
    · exact Or.inr (Prod.mk.inj (List.mem_singleton.mp hmem)).1
  rcases hs with rfl | rfl <;> decide

theorem breadcrumb_trail (K : PageKey) (h : K.key ≠ "index".toList) (title : Str) :
    ∃ inlines, breadcrumb K.key title = some [.emph inlines] ∧ Trail K title inlines := by
  have hhome : urlTarget K.dir (ups K.dir ++ "index.html".toList) = ["index.html".toList] := by
    rw [urlTarget_ups]
    decide
  rw [breadcrumb, if_neg h]
  simp only [climb_eq]
  cases hlookup : (if '/' ∈ K.key then SECTIONS.lookup ((split K.key).headD []) else none) with
  | none =>
      refine ⟨_, rfl, .top _ hhome fun s name hin => ?_⟩
      have hseg := hin.seg
      rw [← hseg] at hin
      rw [(lookup_eq_some_iff K name).mpr hin] at hlookup
      cases hlookup
  | some name =>
      have hin := (lookup_eq_some_iff K name).mp hlookup
      refine ⟨_, rfl, .inSection _ _ name _ hhome hin ?_⟩
      rw [List.append_assoc, List.append_assoc, ← List.append_assoc SECTION_PAGE_DIR, urlTarget_ups]
      exact section_target hin.2

def deckLogKey : PageKey where
  segs := ["changelog".toList, "2025".toList, "20250101-deck-log".toList]
  ne_nil := by decide
  plain := by decide

theorem breadcrumb_trail_deckLog : ∃ inlines,
    breadcrumb deckLogKey.key "Deck log".toList = some [.emph inlines] ∧
      Trail deckLogKey "Deck log".toList inlines :=
  breadcrumb_trail deckLogKey (by decide) "Deck log".toList

end DecisionMeta
