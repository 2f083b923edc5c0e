import Mathlib.Data.List.Basic

/-! # Streams of differences

Each item is coded against the one that stands a fixed number of places before it.  A
receiver that keeps as many items as that number decodes the whole stream. -/
set_option autoImplicit false

namespace DeltaStream

/-- A coder that may refer to an item which both sides have. -/
structure Coder (α π : Type) where
  encode : Option α → α → π
  decode : Option α → π → Option α
  decode_encode : ∀ ref x, decode ref (encode ref x) = some x

section Streams
variable {α π : Type} (c : Coder α π)

/-- The packets of the items at `places`, each against the item `lag` places before. -/
def sent (item : Nat → α) (lag : Nat) (places : List Nat) : List π :=
  places.map fun i => c.encode (some (item (i - lag))) (item i)

def receive : List α → List π → Option (List α)
  | _, [] => some []
  | [], _ :: _ => none
  | ref :: kept, p :: rest => do
    let x ← c.decode (some ref) p
    let later ← receive (kept ++ [x]) rest
    return x :: later

theorem receive_sent (item : Nat → α) {lag : Nat} (hlag : 0 < lag) : ∀ count start : Nat,
    receive c ((List.range' start lag).map item) (sent c item lag (List.range' (start + lag) count)) =
      some ((List.range' (start + lag) count).map item) := by
  intro count
  induction count with
  | zero => intro start; rfl
  | succ count ih =>
      intro start
      obtain ⟨n, rfl⟩ : ∃ n, lag = n + 1 := ⟨lag - 1, by omega⟩
      -- the window moves on by one item
      have hwindow : (List.range' (start + 1) n).map item ++ [item (start + (n + 1))] =
          (List.range' (start + 1) (n + 1)).map item := by
        rw [List.range'_1_concat, List.map_append, List.map_singleton]
        congr 3
        omega
      have hnext := ih (start + 1)
      rw [show start + 1 + (n + 1) = start + (n + 1) + 1 by omega] at hnext
      rw [List.range'_succ, List.range'_succ, List.map_cons, List.map_cons, sent, List.map_cons, ← sent,
        receive, Nat.add_sub_cancel, c.decode_encode, Option.bind_eq_bind, Option.bind_some, hwindow, hnext]
      rfl

end Streams

end DeltaStream
