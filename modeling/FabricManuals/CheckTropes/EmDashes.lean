import FabricManuals.CheckTropes.Model
import FabricManuals.Lib.Lines

/-! # What the em-dash pass counts

The pass knows one fence, three backticks at the start of a line, and counts by the
parity of the fences it has met; its lines end in a newline.  CommonMark has fences of
two kinds and any length, indented or not, and lines that end in a carriage return.
`emDashes_iff` says on which lines the two have to agree. -/
set_option autoImplicit false

namespace CheckTropes

open TextFile Backtrack

def indent (line : Str) : Nat := (line.takeWhile (· == ' ')).length
def unindented (line : Str) : Str := line.dropWhile (· == ' ')

def isBlank (c : Char) : Bool := c == ' ' || c == '\t'

structure Fence where
  char : Char
  length : Nat
deriving DecidableEq

/-- At most three spaces and three or more backticks or tildes; no backtick follows
backticks. -/
def opens (line : Str) : Option Fence :=
  match unindented line with
  | [] => none
  | c :: rest =>
    let run := (rest.takeWhile (· == c)).length + 1
    if indent line ≤ 3 ∧ (c = '`' ∨ c = '~') ∧ 3 ≤ run ∧ (c = '`' → '`' ∉ rest.dropWhile (· == c)) then
      some ⟨c, run⟩
    else none

/-- A fence of the same character, at least as long, and nothing behind it. -/
def closes (fence : Fence) (line : Str) : Bool :=
  indent line ≤ 3 && fence.length ≤ ((unindented line).takeWhile (· == fence.char)).length &&
    ((unindented line).dropWhile (· == fence.char)).all isBlank

/-- One to six hash signs, and a blank or the end of the line. -/
def isAtxHeading (line : Str) : Bool :=
  let run := ((unindented line).takeWhile (· == '#')).length
  indent line ≤ 3 && 1 ≤ run && run ≤ 6 && ((unindented line).drop run).head?.all isBlank

def fenceStep (open' : Option Fence) (line : Str) : Option Fence :=
  match open' with
  | none => opens line
  | some fence => if closes fence line then none else some fence

/-- The lines of CommonMark in a line of the pass: a carriage return ends one too, alone
or in front of the newline. -/
def linesOf (line : Str) : List Str :=
  (if line.getLast? = some '\r' then line.dropLast else line).splitOn '\r'

def isProse (open' : Option Fence) (line : Str) : Bool :=
  open' == none && opens line == none && !isAtxHeading line

/-- The em-dashes of the prose that is kept, less one for each list item that has one. -/
def proseFrom (L : Locale) (keeps : Str → Bool) (open' : Option Fence) : List Str → Nat
  | [] => 0
  | line :: rest =>
    (if isProse open' line && keeps line then dashes L line else 0) +
      proseFrom L keeps (fenceStep open' line) rest

def proseDashes (L : Locale) (text : Str) : Nat :=
  proseFrom L (fun _ => true) none ((Lines.records '\n' text).flatMap linesOf)

def weighFrom (w : List Str → Str → Nat) (pre : List Str) : List Str → Nat
  | [] => 0
  | line :: rest => w pre line + weighFrom w (pre ++ [line]) rest

def weigh (w : List Str → Str → Nat) (text : Str) : Nat := weighFrom w [] (Lines.records '\n' text)

/-- An even number of fences before the line, and the line neither a fence nor one that
begins with a hash sign. -/
def passKeeps (L : Locale) (pre : List Str) (line : Str) : Bool :=
  pre.countP isFence % 2 == 0 && !isFence line && !isHeading L line

/-- What the pass counts of a line. -/
def passOf (L : Locale) (pre : List Str) (line : Str) : Nat :=
  if passKeeps L pre line then dashes L line else 0

/-- What there is to count in it. -/
def proseOf (L : Locale) (pre : List Str) (line : Str) : Nat :=
  proseFrom L (fun _ => true) ((pre.flatMap linesOf).foldl fenceStep none) (linesOf line)

/-- What the pass counts too much on some lines, and too little on others. -/
def overcount (L : Locale) (text : Str) : Nat :=
  weigh (fun pre line => passOf L pre line - proseOf L pre line) text

def undercount (L : Locale) (text : Str) : Nat :=
  weigh (fun pre line => proseOf L pre line - passOf L pre line) text

theorem dashes_eq (L : Locale) (line : Str) :
    dashes L line = line.count '—' - if isItem L line ∧ '—' ∈ line then 1 else 0 := by
  unfold dashes
  by_cases hitem : isItem L line = true
  · rw [if_pos hitem, List.count_erase_self]
    by_cases hmem : '—' ∈ line
    · rw [if_pos ⟨hitem, hmem⟩]
    · rw [if_neg fun h => hmem h.2, List.count_eq_zero_of_not_mem hmem]
  · rw [if_neg hitem, if_neg fun h => hitem h.1, Nat.sub_zero]

/-- The fence bit is the parity of the fences met, and the total grows by what is kept. -/
theorem foldl_awkLine (L : Locale) : ∀ (rest pre : List Str) (total : Nat),
    rest.foldl (awkLine L) (pre.countP isFence % 2 == 1, total) =
      ((pre ++ rest).countP isFence % 2 == 1, total + weighFrom (passOf L) pre rest) := by
  intro rest
  induction rest with
  | nil => intro pre total; simp [weighFrom]
  | cons line rest ih =>
      intro pre total
      have hcount : (pre ++ [line]).countP isFence =
          pre.countP isFence + if isFence line then 1 else 0 := by
        rw [List.countP_append, List.countP_singleton]
      have hstep : awkLine L (pre.countP isFence % 2 == 1, total) line =
          ((pre ++ [line]).countP isFence % 2 == 1, total + passOf L pre line) := by
        unfold awkLine passOf passKeeps
        rw [hcount]
        rcases Nat.mod_two_eq_zero_or_one (pre.countP isFence) with hpar | hpar
        · cases hfence : isFence line with
          | true => simp [hpar, Nat.add_mod]
          | false => cases hhead : isHeading L line <;> simp [hpar]
        · cases hfence : isFence line with
          | true => simp [hpar, Nat.add_mod]
          | false => simp [hpar]
      rw [List.foldl_cons, hstep, ih, weighFrom, List.append_assoc, List.singleton_append,
        Nat.add_assoc]

theorem emDashes_eq (L : Locale) (text : Str) : emDashes L text = weigh (passOf L) text := by
  have hrun := foldl_awkLine L (Lines.records '\n' text) [] 0
  have hbit : (([] : List Str).countP isFence % 2 == 1) = false := rfl
  rw [hbit] at hrun
  rw [emDashes, hrun, weigh, Nat.zero_add]

theorem proseFrom_append (L : Locale) (keeps : Str → Bool) : ∀ (ls rest : List Str) (open' : Option Fence),
    proseFrom L keeps open' (ls ++ rest) =
      proseFrom L keeps open' ls + proseFrom L keeps (ls.foldl fenceStep open') rest := by
  intro ls
  induction ls with
  | nil => intro rest open'; exact (Nat.zero_add _).symm
  | cons line ls ih =>
      intro rest open'
      rw [List.cons_append, proseFrom, ih, proseFrom, List.foldl_cons, Nat.add_assoc]

theorem proseDashes_eq (L : Locale) (text : Str) : proseDashes L text = weigh (proseOf L) text := by
  have main : ∀ rest pre : List Str,
      proseFrom L (fun _ => true) ((pre.flatMap linesOf).foldl fenceStep none) (rest.flatMap linesOf) =
        weighFrom (proseOf L) pre rest := by
    intro rest
    induction rest with
    | nil => intro pre; rfl
    | cons line rest ih =>
        intro pre
        have hopen : (linesOf line).foldl fenceStep ((pre.flatMap linesOf).foldl fenceStep none) =
            ((pre ++ [line]).flatMap linesOf).foldl fenceStep none := by
          rw [List.flatMap_append, List.foldl_append, List.flatMap_singleton]
        rw [List.flatMap_cons, proseFrom_append, hopen, ih, weighFrom, proseOf]
  exact main _ []

theorem weighFrom_add (v w : List Str → Str → Nat) : ∀ rest pre : List Str,
    weighFrom v pre rest + weighFrom (fun pre line => w pre line - v pre line) pre rest =
      weighFrom w pre rest + weighFrom (fun pre line => v pre line - w pre line) pre rest := by
  intro rest
  induction rest with
  | nil => intro pre; rfl
  | cons line rest ih =>
      intro pre
      have hrest := ih (pre ++ [line])
      simp only [weighFrom]
      omega

theorem emDashes_eq_iff (L : Locale) (text : Str) :
    emDashes L text = proseDashes L text ↔ overcount L text = undercount L text := by
  have hsum : emDashes L text + undercount L text = proseDashes L text + overcount L text := by
    rw [emDashes_eq, proseDashes_eq]
    exact weighFrom_add (passOf L) (proseOf L) _ []
  constructor
  · intro h
    omega
  · intro h
    omega

theorem weighFrom_eq_zero_iff (w : List Str → Str → Nat) : ∀ rest pre : List Str,
    weighFrom w pre rest = 0 ↔ ∀ mid line post, rest = mid ++ line :: post → w (pre ++ mid) line = 0 := by
  intro rest
  induction rest with
  | nil => intro pre; simp [weighFrom]
  | cons first rest ih =>
      intro pre
      rw [weighFrom, Nat.add_eq_zero_iff, ih (pre ++ [first])]
      constructor
      · intro h mid line post hsplit
        obtain ⟨hfirst, hrest⟩ := h
        cases mid with
        | nil =>
            obtain ⟨rfl, -⟩ := List.cons.inj hsplit
            rwa [List.append_nil]
        | cons m mid =>
            obtain ⟨rfl, htail⟩ := List.cons.inj hsplit
            have hline := hrest mid line post htail
            rwa [List.append_assoc] at hline
      · intro h
        refine ⟨?_, fun mid line post hsplit => ?_⟩
        · have hfirst := h [] first rest rfl
          rwa [List.append_nil] at hfirst
        · rw [List.append_assoc]
          exact h (first :: mid) line post (by rw [hsplit]; rfl)

/-- The pass counts on each line what there is to count in it. -/
def ReadAlike (L : Locale) (text : Str) : Prop :=
  ∀ pre line post, Lines.records '\n' text = pre ++ line :: post → passOf L pre line = proseOf L pre line

theorem readAlike_iff (L : Locale) (text : Str) :
    ReadAlike L text ↔ overcount L text = 0 ∧ undercount L text = 0 := by
  unfold ReadAlike overcount undercount weigh
  rw [weighFrom_eq_zero_iff, weighFrom_eq_zero_iff]
  simp only [List.nil_append]
  constructor
  · intro h
    refine ⟨fun pre line post hsplit => ?_, fun pre line post hsplit => ?_⟩
    · rw [h pre line post hsplit, Nat.sub_self]
    · rw [h pre line post hsplit, Nat.sub_self]
  · intro h pre line post hsplit
    obtain ⟨hover, hunder⟩ := h
    exact le_antisymm (Nat.sub_eq_zero_iff_le.mp (hover pre line post hsplit))
      (Nat.sub_eq_zero_iff_le.mp (hunder pre line post hsplit))

theorem emDashes_of_readAlike {L : Locale} {text : Str} (h : ReadAlike L text) :
    emDashes L text = proseDashes L text := by
  obtain ⟨hover, hunder⟩ := (readAlike_iff ..).mp h
  rw [emDashes_eq_iff, hover, hunder]

/-- Some line is counted too high and another too low. -/
def Offset (L : Locale) (text : Str) : Prop :=
  (∃ pre line post, Lines.records '\n' text = pre ++ line :: post ∧ proseOf L pre line < passOf L pre line) ∧
    ∃ pre line post, Lines.records '\n' text = pre ++ line :: post ∧ passOf L pre line < proseOf L pre line

theorem offset_iff (L : Locale) (text : Str) : Offset L text ↔ overcount L text ≠ 0 ∧ undercount L text ≠ 0 := by
  unfold Offset overcount undercount weigh
  rw [Ne, Ne, weighFrom_eq_zero_iff, weighFrom_eq_zero_iff]
  simp only [List.nil_append, Nat.sub_eq_zero_iff_le, not_forall, Nat.not_le, exists_prop]

/-- The count is right, and not by lines counted too high that make up for others counted
too low, exactly if no line is misread. -/
theorem emDashes_iff (L : Locale) (text : Str) :
    (emDashes L text = proseDashes L text ∧ ¬ Offset L text) ↔ ReadAlike L text := by
  rw [emDashes_eq_iff, offset_iff, readAlike_iff]
  constructor
  · intro h
    obtain ⟨hsame, hside⟩ := h
    by_cases hover : overcount L text = 0
    · exact ⟨hover, hsame ▸ hover⟩
    · have hunder : undercount L text = 0 := by
        by_contra hne
        exact hside ⟨hover, hne⟩
      exact absurd (hsame.trans hunder) hover
  · intro h
    obtain ⟨hover, hunder⟩ := h
    exact ⟨hover.trans hunder.symm, fun hoffset => hoffset.1 hover⟩

/-- Lines that end in a newline alone; fences as the pass knows them, three backticks at
the start of a line, with an info string where they open and nothing where they close; and
headings alone begin with a hash sign. -/
structure HouseStyle (L : Locale) (ls : List Str) : Prop where
  plain : ∀ line ∈ ls, '\r' ∉ line
  opening : ∀ pre line post, ls = pre ++ line :: post → pre.countP isFence % 2 = 0 →
    opens line = if isFence line then some ⟨'`', 3⟩ else none
  closing : ∀ pre line post, ls = pre ++ line :: post → pre.countP isFence % 2 = 1 →
    closes ⟨'`', 3⟩ line = isFence line
  headings : ∀ line ∈ ls, isFence line = false → isHeading L line = isAtxHeading line

theorem linesOf_plain {line : Str} (h : '\r' ∉ line) : linesOf line = [line] := by
  rw [linesOf, if_neg fun hlast => h (List.mem_of_getLast? hlast), Lines.splitOn_of_line '\r' h]

theorem flatMap_linesOf_plain {ls : List Str} (h : ∀ line ∈ ls, '\r' ∉ line) : ls.flatMap linesOf = ls := by
  induction ls with
  | nil => rfl
  | cons line ls ih =>
      obtain ⟨hline, hls⟩ := List.forall_mem_cons.mp h
      rw [List.flatMap_cons, linesOf_plain hline, ih hls, List.singleton_append]

theorem HouseStyle.fence {L : Locale} {ls : List Str} (h : HouseStyle L ls) : ∀ pre post : List Str,
    ls = pre ++ post →
      pre.foldl fenceStep none = if pre.countP isFence % 2 = 0 then none else some ⟨'`', 3⟩ := by
  intro pre
  induction pre using List.reverseRecOn with
  | nil => intro post _; rfl
  | append_singleton pre line ih =>
      intro post hls
      have hsplit : ls = pre ++ line :: post := by rw [hls, List.append_assoc]; rfl
      have hcount : (pre ++ [line]).countP isFence =
          pre.countP isFence + if isFence line then 1 else 0 := by
        rw [List.countP_append, List.countP_singleton]
      rw [List.foldl_append, ih _ hsplit, List.foldl_cons, List.foldl_nil, hcount]
      rcases Nat.mod_two_eq_zero_or_one (pre.countP isFence) with hpar | hpar
      · rw [if_pos hpar, fenceStep, h.opening pre line post hsplit hpar]
        cases isFence line <;> simp [Nat.add_mod, hpar]
      · rw [if_neg (by omega), fenceStep, h.closing pre line post hsplit hpar]
        cases isFence line <;> simp [Nat.add_mod, hpar]

theorem HouseStyle.passKeeps_eq {L : Locale} {ls : List Str} (h : HouseStyle L ls) {pre post : List Str}
    {line : Str} (hls : ls = pre ++ line :: post) :
    passKeeps L pre line = isProse (pre.foldl fenceStep none) line := by
  have hline : line ∈ ls := by rw [hls]; simp
  unfold passKeeps isProse
  rw [h.fence pre _ hls]
  rcases Nat.mod_two_eq_zero_or_one (pre.countP isFence) with hpar | hpar
  · rw [if_pos hpar, h.opening pre line post hls hpar]
    cases hfence : isFence line with
    | true => simp
    | false => simp [hpar, h.headings line hline hfence]
  · rw [if_neg (by omega), hpar]
    rfl

theorem emDashes_of_houseStyle (L : Locale) (text : Str)
    (h : HouseStyle L (Lines.records '\n' text)) : emDashes L text = proseDashes L text := by
  have halike : ReadAlike L text := by
    intro pre line post hsplit
    have hplain : ∀ l ∈ pre ++ line :: post, '\r' ∉ l := hsplit ▸ h.plain
    have hpre := flatMap_linesOf_plain fun l hl => hplain l (List.mem_append_left _ hl)
    have hline := linesOf_plain (hplain line (by simp))
    rw [passOf, h.passKeeps_eq hsplit, proseOf, hpre, hline]
    simp [proseFrom]
  exact emDashes_of_readAlike halike

/-- A longer fence around a shorter one, and a fence of tildes. -/
def fencedText : Str := "````\n```\n````\nOne — two.\n~~~\nthree — four — five\n~~~\n".toList

theorem fences_are_misread :
    emDashes .posix fencedText = 0 ∧ proseDashes .posix fencedText = 1 ∧
      ¬ ∀ (L : Locale) (text : Str), emDashes L text = proseDashes L text := by
  have hpass : emDashes .posix fencedText = 0 := by decide +kernel
  have hprose : proseDashes .posix fencedText = 1 := by decide +kernel
  refine ⟨hpass, hprose, fun h => ?_⟩
  have hsame := h .posix fencedText
  rw [hpass, hprose] at hsame
  cases hsame

end CheckTropes
