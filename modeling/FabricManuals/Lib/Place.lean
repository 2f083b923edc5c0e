import FabricManuals.Lib.PosixPath

/-! # Places relative to a root

A relative path may climb out of the directory it is read in.  A place counts the
directories climbed and names what lies below them; `normpath` writes it down. -/
set_option autoImplicit false

namespace PosixPath

open TextFile

def Named (seg : Str) : Prop := seg ≠ [] ∧ seg ≠ dot ∧ seg ≠ dotdot

theorem Plain.named {seg : Str} (h : Plain seg) : Named seg := ⟨h.ne_nil, h.ne_dot, h.ne_dotdot⟩

/-- So many directories up from the root, then down along `names`. -/
structure Place where
  ups : Nat
  names : List Str
  named : ∀ n ∈ names, Named n

def Place.root : Place := ⟨0, [], by simp⟩

def Place.up (p : Place) : Place :=
  if p.names = [] then ⟨p.ups + 1, [], by simp⟩
  else ⟨p.ups, p.names.dropLast, fun n hn => p.named n (List.mem_of_mem_dropLast hn)⟩

def Place.down (p : Place) (seg : Str) (h : Named seg) : Place where
  ups := p.ups
  names := p.names ++ [seg]
  named := by
    intro n hn
    rcases List.mem_append.mp hn with hn | hn
    · exact p.named n hn
    · rwa [List.mem_singleton.mp hn]

def Place.step (p : Place) (seg : Str) : Place :=
  if hstay : seg = [] ∨ seg = dot then p
  else if hup : seg = dotdot then p.up
  else p.down seg ⟨fun h => hstay (Or.inl h), fun h => hstay (Or.inr h), hup⟩

def Place.walk (p : Place) (segs : List Str) : Place := segs.foldl Place.step p

def Place.key (p : Place) : Option Str :=
  if p.ups = 0 then some (if p.names = [] then dot else joinSegs p.names) else none

def Place.comps (p : Place) : List Str := List.replicate p.ups dotdot ++ p.names

theorem Place.walk_cons (p : Place) (seg : Str) (rest : List Str) :
    p.walk (seg :: rest) = (p.step seg).walk rest := rfl

theorem Place.walk_append (p : Place) (a b : List Str) : p.walk (a ++ b) = (p.walk a).walk b :=
  List.foldl_append ..

theorem Place.step_skip (p : Place) {seg : Str} (h : seg = [] ∨ seg = dot) : p.step seg = p := by
  rw [Place.step, dif_pos h]

theorem Place.step_named (p : Place) {seg : Str} (h : Named seg) : p.step seg = p.down seg h := by
  rw [Place.step, dif_neg (by simp [h.1, h.2.1]), dif_neg h.2.2]

theorem Place.comps_up (p : Place) : pushComp false p.comps dotdot = p.up.comps := by
  have hskip : ¬ (dotdot = [] ∨ dotdot = dot) := by decide
  unfold pushComp Place.up
  rw [if_neg hskip]
  by_cases hnames : p.names = []
  · -- at the root or above it, one more directory is climbed
    have hcomps : p.comps = List.replicate p.ups dotdot := by simp [Place.comps, hnames]
    have hlast : p.comps = [] ∨ p.comps.getLast? = some dotdot := by
      rw [hcomps]
      cases p.ups with
      | zero => exact Or.inl rfl
      | succ n => exact Or.inr (by rw [List.replicate_succ', List.getLast?_concat])
    rw [if_pos (by simpa using hlast), if_pos hnames, hcomps]
    simp [Place.comps, List.replicate_succ']
  · obtain ⟨init, last, hsplit⟩ : ∃ init last, p.names = init ++ [last] :=
      ⟨_, _, (List.dropLast_append_getLast hnames).symm⟩
    have hcomps : p.comps = (List.replicate p.ups dotdot ++ init) ++ [last] := by
      rw [Place.comps, hsplit, List.append_assoc]
    have hlast : last ≠ dotdot := (p.named last (by rw [hsplit]; simp)).2.2
    rw [if_neg (by rw [hcomps]; simp [hlast]), if_neg hnames, hcomps, List.dropLast_concat, Place.comps]
    simp [hsplit]

theorem Place.comps_step (p : Place) (seg : Str) :
    pushComp false p.comps seg = (p.step seg).comps := by
  by_cases hskip : seg = [] ∨ seg = dot
  · rw [p.step_skip hskip, pushComp, if_pos hskip]
  by_cases hup : seg = dotdot
  · subst hup
    rw [p.comps_up, Place.step, dif_neg hskip, dif_pos rfl]
  · have hnamed : Named seg := ⟨fun h => hskip (Or.inl h), fun h => hskip (Or.inr h), hup⟩
    rw [p.step_named hnamed, pushComp, if_neg hskip, if_pos (Or.inl hup)]
    simp [Place.comps, Place.down]

theorem Place.comps_walk : ∀ (segs : List Str) (p : Place),
    segs.foldl (pushComp false) p.comps = (p.walk segs).comps := by
  intro segs
  induction segs with
  | nil => intro p; rfl
  | cons seg rest ih =>
      intro p
      rw [List.foldl_cons, p.comps_step, ih, p.walk_cons]

theorem joinSegs_ne_nil_of_head {a : Str} (ha : a ≠ []) (rest : List Str) :
    joinSegs (a :: rest) ≠ [] := by
  cases rest with
  | nil => simpa [joinSegs] using ha
  | cons b rest => simp [joinSegs_cons_cons]

/-- A relative path normalises to the place its segments lead to. -/
theorem normpath_relative {s : Str} (h : isabs s = false) :
    normpath s = if (Place.root.walk (split s)).comps = [] then dot
      else joinSegs (Place.root.walk (split s)).comps := by
  have hslashes : initialSlashes s = 0 := by
    cases s with
    | nil => rfl
    | cons c rest =>
        have hc : ('/' == c) = false := by
          rw [beq_eq_false_iff_ne]
          intro hc
          subst hc
          cases h
        simp [initialSlashes, List.isPrefixOf, hc, h]
  have hcomps : (split s).foldl (pushComp false) [] = (Place.root.walk (split s)).comps :=
    Place.comps_walk (split s) Place.root
  unfold normpath
  rw [h, hcomps, hslashes]
  by_cases hnil : s = []
  · subst hnil
    rfl
  rw [if_neg hnil]
  simp only [List.replicate_zero, List.nil_append]
  cases hlist : (Place.root.walk (split s)).comps with
  | nil => rfl
  | cons a rest =>
      have ha : a ≠ [] := by
        have hmem : a ∈ (Place.root.walk (split s)).comps := by rw [hlist]; simp
        rcases List.mem_append.mp hmem with hmem | hmem
        · rw [List.eq_of_mem_replicate hmem]; decide
        · exact (Place.named _ a hmem).1
      rw [if_neg (joinSegs_ne_nil_of_head ha rest), if_neg (by simp)]

theorem Place.walk_names : ∀ (segs : List Str) (p : Place), (∀ s ∈ segs, Named s) →
    (p.walk segs).ups = p.ups ∧ (p.walk segs).names = p.names ++ segs := by
  intro segs
  induction segs with
  | nil => intro p _; simp [Place.walk]
  | cons seg rest ih =>
      intro p h
      obtain ⟨hseg, hrest⟩ := List.forall_mem_cons.mp h
      obtain ⟨hups, hnames⟩ := ih (p.down seg hseg) hrest
      rw [p.walk_cons, p.step_named hseg, hups, hnames]
      simp [Place.down]

def Place.dir (segs : List Str) : Place := Place.root.walk segs

theorem Place.dir_names {segs : List Str} (h : ∀ s ∈ segs, Plain s) :
    (Place.dir segs).ups = 0 ∧ (Place.dir segs).names = segs := by
  simpa [Place.dir, Place.root] using Place.walk_names segs Place.root fun s hs => (h s hs).named

theorem Place.walk_split_join (p : Place) (a b : Str) (hb : isabs b = false) :
    p.walk (split (join a b)) = (p.walk (split a)).walk (split b) := by
  have hskip : ∀ q : Place, q.walk [[]] = q := fun q => q.step_skip (Or.inl rfl)
  have hempty : split ([] : Str) = [[]] := rfl
  rw [join, hb, if_neg (by simp)]
  by_cases hjoin : a = [] ∨ a.getLast? = some '/'
  · rw [if_pos hjoin]
    rcases hjoin with rfl | hlast
    · rw [hempty, hskip, List.nil_append]
    · obtain ⟨init, rfl⟩ := List.getLast?_eq_some_iff.mp hlast
      rw [List.append_assoc, List.singleton_append, split_append_slash, split_append_slash init [],
        hempty, p.walk_append, p.walk_append, hskip]
  · rw [if_neg hjoin, split_append_slash, p.walk_append]

theorem Place.no_slash_of_walk : ∀ (segs : List Str) (p : Place), (∀ n ∈ p.names, '/' ∉ n) →
    (∀ s ∈ segs, '/' ∉ s) → ∀ n ∈ (p.walk segs).names, '/' ∉ n := by
  intro segs
  induction segs with
  | nil => intro p hp _; exact hp
  | cons seg rest ih =>
      intro p hp h
      obtain ⟨hseg, hrest⟩ := List.forall_mem_cons.mp h
      rw [p.walk_cons]
      apply ih _ _ hrest
      unfold Place.step
      split
      · exact hp
      · split
        · unfold Place.up
          split
          · simp
          · exact fun n hn => hp n (List.mem_of_mem_dropLast hn)
        · intro n hn
          rcases List.mem_append.mp hn with hn | hn
          · exact hp n hn
          · rwa [List.mem_singleton.mp hn]

theorem Place.ups_le_step (p : Place) (seg : Str) : p.ups ≤ (p.step seg).ups := by
  unfold Place.step
  split
  · exact Nat.le_refl _
  · split
    · unfold Place.up
      split
      · exact Nat.le_succ _
      · exact Nat.le_refl _
    · exact Nat.le_refl _

theorem Place.ups_le_walk : ∀ (segs : List Str) (p : Place), p.ups ≤ (p.walk segs).ups := by
  intro segs
  induction segs with
  | nil => intro p; exact Nat.le_refl _
  | cons seg rest ih => intro p; exact (p.ups_le_step seg).trans (ih (p.step seg))

/-- A walk that climbs no further up goes as it would below a root. -/
theorem Place.names_walk : ∀ (segs : List Str) (p : Place), (p.walk segs).ups = p.ups →
    (p.walk segs).names = PosixPath.walk p.names segs := by
  intro segs
  induction segs with
  | nil => intro p _; rfl
  | cons seg rest ih =>
      intro p h
      rw [p.walk_cons] at h ⊢
      have hfirst := p.ups_le_step seg
      have hrest := Place.ups_le_walk rest (p.step seg)
      have hstep : (p.step seg).ups = p.ups := by omega
      rw [ih (p.step seg) (by omega), PosixPath.walk_cons]
      congr 1
      unfold Place.step PosixPath.step
      by_cases hskip : seg = [] ∨ seg = dot
      · rw [dif_pos hskip, if_pos hskip]
      rw [dif_neg hskip, if_neg hskip]
      by_cases hup : seg = dotdot
      · rw [dif_pos hup, if_pos hup]
        have hnames : p.names ≠ [] := by
          intro hnil
          rw [Place.step, dif_neg hskip, dif_pos hup, Place.up, if_pos hnil] at hstep
          simp at hstep
        rw [Place.up, if_neg hnames]
      · rw [dif_neg hup, if_neg hup]
        rfl

end PosixPath
