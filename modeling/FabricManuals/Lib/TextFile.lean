import Mathlib.Data.List.TakeWhile
import FabricManuals.Lib.Lines

/-! # Text files: UTF-8 decoding, newlines, character classes

`utf8` decodes byte by byte and marks each undecodable stretch, so a strict reader
fails on the first mark and a tolerant one drops the marks.  A stretch is the
longest prefix of a well-formed sequence, and decoding resumes at the byte that
broke it. -/
set_option autoImplicit false

namespace TextFile

abbrev Str := List Char

/-- Decided along the list, also where the type is finite and could be gone through whole. -/
instance (priority := 2000) decidableForallMem {α : Type} (p : α → Prop) [DecidablePred p] (l : List α) :
    Decidable (∀ a ∈ l, p a) :=
  List.decidableBAll p l

def isDigit (c : Char) : Bool := '0' ≤ c && c ≤ '9'
def isLower (c : Char) : Bool := 'a' ≤ c && c ≤ 'z'
def isUpper (c : Char) : Bool := 'A' ≤ c && c ≤ 'Z'
def isHex (c : Char) : Bool := isDigit c || ('a' ≤ c && c ≤ 'f')
def isAlnum (c : Char) : Bool := isDigit c || isLower c || isUpper c
def isSlug (c : Char) : Bool := isLower c || isDigit c || c == '-'

/-- The white space of a Unicode string, code point by code point. -/
def isSpace (c : Char) : Bool :=
  let n := c.toNat
  (9 ≤ n && n ≤ 13) || (28 ≤ n && n ≤ 32) || n == 0x85 || n == 0xA0 || n == 0x1680 ||
    (0x2000 ≤ n && n ≤ 0x200A) || n == 0x2028 || n == 0x2029 || n == 0x202F || n == 0x205F ||
    n == 0x3000

/-- The classes that a newer Unicode version may extend beyond ASCII: decimal
digits and word characters.  Only their ASCII part is fixed. -/
structure Unicode where
  decimal : Char → Bool
  word : Char → Bool
  decimal_ascii : ∀ c : Char, c.toNat < 128 → decimal c = isDigit c
  word_ascii : ∀ c : Char, c.toNat < 128 → word c = (isAlnum c || c == '_')
  word_of_decimal : ∀ c, decimal c = true → word c = true

def Unicode.ascii : Unicode where
  decimal := isDigit
  word c := isAlnum c || c == '_'
  decimal_ascii _ _ := rfl
  word_ascii _ _ := rfl
  word_of_decimal c h := by simp [isAlnum, h]

def strip (s : Str) : Str := ((s.dropWhile isSpace).reverse.dropWhile isSpace).reverse

def upTo (w : Str) : Str → Option Str
  | [] => if w = [] then some [] else none
  | c :: rest => if w.isPrefixOf (c :: rest) then some [] else (upTo w rest).map (c :: ·)

def universalNewlines : Str → Str
  | '\r' :: '\n' :: rest => '\n' :: universalNewlines rest
  | '\r' :: rest => '\n' :: universalNewlines rest
  | c :: rest => c :: universalNewlines rest
  | [] => []

theorem universalNewlines_cons {c : Char} (hc : c ≠ '\r') (s : Str) :
    universalNewlines (c :: s) = c :: universalNewlines s := by
  rw [universalNewlines]
  · exact fun _ h => absurd h hc
  · exact fun h => absurd h hc

theorem universalNewlines_return {s : Str} (h : s.head? ≠ some '\n') :
    universalNewlines ('\r' :: s) = '\n' :: universalNewlines s := by
  rw [universalNewlines]
  rintro rest rfl
  exact h rfl

/-- A newline ends a line, with the carriage return before it if there is one. -/
theorem universalNewlines_append_newline (b : Str) : ∀ a : Str, '\n' ∉ a →
    universalNewlines (a ++ '\n' :: b) = universalNewlines a ++ '\n' :: universalNewlines b ∨
      ∃ z, universalNewlines a = z ++ ['\n'] ∧
        universalNewlines (a ++ '\n' :: b) = z ++ '\n' :: universalNewlines b := by
  intro a
  induction a with
  | nil => exact fun _ => Or.inl (universalNewlines_cons (by decide) b)
  | cons c a ih =>
      intro h
      rw [List.mem_cons, not_or] at h
      have hhead : ∀ s : Str, a ≠ [] → (a ++ s).head? ≠ some '\n' := by
        intro s hne heq
        obtain ⟨c', a', rfl⟩ := List.exists_cons_of_ne_nil hne
        rw [List.cons_append, List.head?_cons, Option.some.injEq] at heq
        exact h.2 (heq ▸ List.mem_cons_self)
      have hstep : a = [] ∧ c = '\r' ∨ ∃ d, universalNewlines (c :: a) = d :: universalNewlines a ∧
          universalNewlines (c :: (a ++ '\n' :: b)) = d :: universalNewlines (a ++ '\n' :: b) := by
        by_cases hc : c = '\r'
        · by_cases hne : a = []
          · exact Or.inl ⟨hne, hc⟩
          · have hself := hhead [] hne
            rw [List.append_nil] at hself
            rw [hc]
            exact Or.inr ⟨'\n', universalNewlines_return hself, universalNewlines_return (hhead _ hne)⟩
        · exact Or.inr ⟨c, universalNewlines_cons hc a, universalNewlines_cons hc _⟩
      rcases hstep with ⟨rfl, rfl⟩ | ⟨d, ha, hab⟩
      · exact Or.inr ⟨[], rfl, rfl⟩
      · rw [List.cons_append, ha, hab]
        rcases ih h.2 with hsame | ⟨z, hz, hsame⟩
        · exact Or.inl (by rw [hsame, List.cons_append])
        · exact Or.inr ⟨d :: z, by rw [hz, List.cons_append], by rw [hsame, List.cons_append]⟩

def lines (s : Str) : List Str := s.splitOn '\n'

theorem strip_isInfix (s : Str) : strip s <:+: s := by
  have hright : ∀ l : Str, (l.reverse.dropWhile isSpace).reverse <:+: l := fun l => by
    have hsuffix : l.reverse.dropWhile isSpace <:+ l.reverse := List.dropWhile_suffix isSpace
    have := List.reverse_infix.mpr hsuffix.isInfix
    rwa [List.reverse_reverse] at this
  exact (hright _).trans (List.dropWhile_suffix isSpace).isInfix

theorem strip_split (u : Str) : ∃ w v, u = w ++ (strip u ++ v) ∧ (∀ a ∈ w, isSpace a = true) ∧
    ∀ a ∈ v, isSpace a = true := by
  refine ⟨u.takeWhile isSpace, ((u.dropWhile isSpace).reverse.takeWhile isSpace).reverse, ?_,
    fun a ha => List.mem_takeWhile_imp ha, fun a ha => List.mem_takeWhile_imp (List.mem_reverse.mp ha)⟩
  rw [strip, ← List.reverse_append, List.takeWhile_append_dropWhile, List.reverse_reverse,
    List.takeWhile_append_dropWhile]

theorem strip_between {w s v : Str} (hw : ∀ a ∈ w, isSpace a = true) (hv : ∀ a ∈ v, isSpace a = true)
    (hfirst : ∃ c ∈ s.head?, isSpace c = false) (hlast : ∃ c ∈ s.getLast?, isSpace c = false) :
    strip (w ++ (s ++ v)) = s := by
  have hleft : ∀ {s u : Str}, (∃ c ∈ s.head?, isSpace c = false) →
      (s ++ u).dropWhile isSpace = s ++ u := by
    rintro (_ | ⟨a, s⟩) u ⟨c, hc, hspace⟩
    · cases hc
    · obtain rfl := Option.some.inj hc
      rw [List.cons_append, List.dropWhile_cons_of_neg (by simp [hspace])]
  have hdrop : ∀ {w u : Str}, (∀ a ∈ w, isSpace a = true) →
      (w ++ u).dropWhile isSpace = u.dropWhile isSpace := fun h => List.dropWhile_append_of_pos h
  have hvrev : ∀ a ∈ v.reverse, isSpace a = true := fun a ha => hv a (List.mem_reverse.mp ha)
  have hrev : ∃ c ∈ s.reverse.head?, isSpace c = false := by rwa [List.head?_reverse]
  have hright := hleft (u := []) hrev
  rw [List.append_nil] at hright
  rw [strip, hdrop hw, hleft hfirst, List.reverse_append, hdrop hvrev, hright, List.reverse_reverse]

/-- `owed` continuation bytes are still to come and the next lies in `[lo, hi]`. -/
structure Partial where
  owed : Nat
  code : Nat
  lo : Nat
  hi : Nat

def leadByte (b : Nat) : List (Option Char) × Option Partial :=
  if b < 0x80 then ([some (Char.ofNat b)], none)
  else if 0xC2 ≤ b && b ≤ 0xDF then ([], some ⟨1, b - 0xC0, 0x80, 0xBF⟩)
  else if b == 0xE0 then ([], some ⟨2, 0, 0xA0, 0xBF⟩)
  else if b == 0xED then ([], some ⟨2, 0xD, 0x80, 0x9F⟩)
  else if 0xE1 ≤ b && b ≤ 0xEF then ([], some ⟨2, b - 0xE0, 0x80, 0xBF⟩)
  else if b == 0xF0 then ([], some ⟨3, 0, 0x90, 0xBF⟩)
  else if 0xF1 ≤ b && b ≤ 0xF3 then ([], some ⟨3, b - 0xF0, 0x80, 0xBF⟩)
  else if b == 0xF4 then ([], some ⟨3, 4, 0x80, 0x8F⟩)
  else ([none], none)

def nextByte (b : Nat) : Option Partial → List (Option Char) × Option Partial
  | none => leadByte b
  | some p =>
    if p.lo ≤ b && b ≤ p.hi then
      let code := p.code * 64 + b % 64
      if p.owed ≤ 1 then ([some (Char.ofNat code)], none)
      else ([], some ⟨p.owed - 1, code, 0x80, 0xBF⟩)
    else (none :: (leadByte b).1, (leadByte b).2)

def utf8From : Option Partial → List UInt8 → List (Option Char)
  | none, [] => []
  | some _, [] => [none]
  | state, b :: rest => (nextByte b.toNat state).1 ++ utf8From (nextByte b.toNat state).2 rest

def utf8 (bytes : List UInt8) : List (Option Char) := utf8From none bytes

/-- The text of a file opened with `errors="ignore"`. -/
def decodeIgnore (bytes : List UInt8) : Str := universalNewlines ((utf8 bytes).filterMap id)

def decode (bytes : List UInt8) : Option Str :=
  if (utf8 bytes).all Option.isSome then some (decodeIgnore bytes) else none

theorem decodeIgnore_of_decode {bytes : List UInt8} {s : Str} (h : decode bytes = some s) :
    decodeIgnore bytes = s := by
  unfold decode at h
  split at h
  · exact Option.some.inj h
  · cases h

def ascii (s : Str) : List UInt8 := s.map fun c => c.toNat.toUInt8

def IsAscii (s : Str) : Prop := ∀ c ∈ s, c.toNat < 128

instance (s : Str) : Decidable (IsAscii s) := inferInstanceAs (Decidable (∀ c ∈ s, _))

theorem utf8_ascii_append : ∀ s : Str, IsAscii s → ∀ rest, utf8 (ascii s ++ rest) = s.map some ++ utf8 rest := by
  intro s
  induction s with
  | nil => intro _ rest; rfl
  | cons c s ih =>
      intro h rest
      obtain ⟨hc, hs⟩ := List.forall_mem_cons.mp h
      have hbyte : c.toNat.toUInt8.toNat = c.toNat := by
        simp only [Nat.toUInt8, UInt8.toNat_ofNat']
        omega
      have hlead : nextByte c.toNat.toUInt8.toNat none = ([some c], none) := by
        rw [hbyte, nextByte, leadByte, if_pos hc, Char.ofNat_toNat]
      simp only [utf8, ascii, List.map_cons, List.cons_append, utf8From, hlead, List.nil_append]
      exact congrArg _ (ih hs rest)

theorem utf8_ascii (s : Str) (h : IsAscii s) : utf8 (ascii s) = s.map some := by
  have happend := utf8_ascii_append s h []
  rwa [List.append_nil, show utf8 [] = [] from rfl, List.append_nil] at happend

theorem universalNewlines_append : ∀ s : Str, '\r' ∉ s → ∀ rest,
    universalNewlines (s ++ rest) = s ++ universalNewlines rest := by
  intro s
  induction s with
  | nil => intro _ rest; rfl
  | cons c s ih =>
      intro h rest
      rw [List.mem_cons, not_or] at h
      rw [List.cons_append, universalNewlines_cons (Ne.symm h.1), ih h.2]
      rfl

theorem decode_ascii_append {s : Str} (hs : IsAscii s) (hcr : '\r' ∉ s) {rest : List UInt8} {text : Str}
    (h : decode (ascii s ++ rest) = some text) : text = s ++ decodeIgnore rest := by
  rw [← decodeIgnore_of_decode h, decodeIgnore, utf8_ascii_append s hs, List.filterMap_append,
    List.filterMap_map, decodeIgnore]
  have hid : s.filterMap (id ∘ some) = s := by simp
  rw [hid, universalNewlines_append s hcr]

end TextFile
