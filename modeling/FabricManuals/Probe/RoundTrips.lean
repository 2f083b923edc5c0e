import FabricManuals.Probe.UnixSocket

/-! # Which round trips `probe_unix` reports

Where the parent leaves its loop early, `report` still sorts `ITERS` elements. -/
set_option autoImplicit false

namespace UnixSocket

open SampleBuffer Transition

/-- The round trip of the sample went through: the clock, the write, the read and the
clock again, in this order. -/
def Completed (log : List Event) (x : Sample) : Prop :=
  [.started x.i x.t0, .wrote x.i, .received x.i, .stopped x.i x.t1].Sublist log

/-- The elements that `report` sorts are all written, and all it reads and draws from
them are samples of completed round trips. -/
def Measured (label : String) (n : Nat) (s : State) : Prop :=
  ∃ xs line sorted, loadFirst s.s n = some xs ∧
    Probe.report Sample.value label s.s n = some (line, sorted) ∧
    (∀ x ∈ xs, Completed s.log x) ∧
    Completed s.log line.median ∧ Completed s.log line.p99 ∧ Completed s.log line.min

/-- The outcomes on which the parent breaks out of its loop. -/
def Action.breaks : Action → Bool
  | .write .failed | .read .failed | .read (.count 0) => true
  | _ => false

def Written (n k : Nat) (cells : Cells Sample) (log : List Event) : Prop :=
  ∃ xs : List Sample, xs.length = k ∧ cells = xs.map some ++ malloc (n - k) ∧
    ∀ x ∈ xs, Completed log x

theorem Completed.concat {log : List Event} {x : Sample} (h : Completed log x) (e : Event) :
    Completed (log ++ [e]) x := h.trans (List.sublist_append_left _ _)

theorem Written.concat {n k : Nat} {cells : Cells Sample} {log : List Event}
    (h : Written n k cells log) (e : Event) : Written n k cells (log ++ [e]) := by
  obtain ⟨xs, hlen, hcells, hxs⟩ := h
  exact ⟨xs, hlen, hcells, fun x hx => (hxs x hx).concat e⟩

theorem written_malloc (n : Nat) (log : List Event) : Written n 0 (malloc n) log :=
  ⟨[], rfl, rfl, nofun⟩

theorem Written.store {n i : Nat} {cells : Cells Sample} {log : List Event} {t0 t1 : UInt64}
    (h : Written n i cells log) (hi : i < n)
    (htrip : [.started i t0, .wrote i, .received i].Sublist log) :
    Written n (i + 1) (store cells i ⟨i, t0, t1⟩) (log ++ [.stopped i t1]) := by
  obtain ⟨xs, rfl, rfl, hxs⟩ := h
  obtain ⟨room, hroom⟩ : ∃ room, n - xs.length = room + 1 := ⟨n - xs.length - 1, by omega⟩
  have hmalloc : (malloc (n - xs.length) : Cells Sample) = none :: malloc (n - (xs.length + 1)) := by
    rw [hroom, show n - (xs.length + 1) = room by omega]
    rfl
  refine ⟨xs ++ [⟨xs.length, t0, t1⟩], by simp, by rw [hmalloc, store_next], fun x hx => ?_⟩
  rcases List.mem_append.mp hx with hx | hx
  · exact (hxs x hx).concat _
  · obtain rfl := List.mem_singleton.mp hx
    exact htrip.append (List.Sublist.refl [Event.stopped xs.length t1])

/-- Where the parent is, what is in its buffer; `broke` says that an outcome so far made
it leave the loop. -/
def Progress (n : Nat) (broke : Prop) (s : State) : Prop :=
  match s.parent with
  | .socketpair | .fork | .closeOther => ¬ broke
  | .start i => ¬ broke ∧ i < n ∧ Written n i s.s s.log
  | .write i t0 => ¬ broke ∧ i < n ∧ Written n i s.s s.log ∧ [.started i t0].Sublist s.log
  | .read i t0 => ¬ broke ∧ i < n ∧ Written n i s.s s.log ∧ [.started i t0, .wrote i].Sublist s.log
  | .record i t0 => ¬ broke ∧ i < n ∧ Written n i s.s s.log ∧
      [.started i t0, .wrote i, .received i].Sublist s.log
  | .report => ∃ k, k ≤ n ∧ Written n k s.s s.log ∧ (k = n ↔ ¬ broke)
  | .close | .waitpid | .returned | .killed => True

theorem progress_parentTest {n i : Nat} {broke : Prop} {s : State} (hbroke : ¬ broke)
    (hi : i ≤ n) (hwritten : Written n i s.s s.log) (hparent : s.parent = parentTest n i) :
    Progress n broke s := by
  rw [Progress, hparent, parentTest]
  by_cases hlt : i < n
  · rw [if_pos hlt]
    exact ⟨hbroke, hlt, hwritten⟩
  · rw [if_neg hlt]
    exact ⟨i, hi, hwritten, by simp [hbroke]; omega⟩

theorem progress_break {n i : Nat} {broke : Prop} {s : State} (hi : i < n)
    (hwritten : Written n i s.s s.log) (hbroke : broke) (hparent : s.parent = .report) :
    Progress n broke s := by
  rw [Progress, hparent]
  exact ⟨i, hi.le, hwritten, by simp [hbroke]; omega⟩

theorem progress_move {n : Nat} {broke : Prop} {a : Action} {s s' : State} (h : Progress n broke s)
    (hmove : Move n s a s') : Progress n (broke ∨ a.breaks = true) s' := by
  cases hmove with
  | socketpair hs hnext =>
      simp only [Progress, hs] at h
      rcases hnext with rfl | rfl
      · simpa [Progress, Action.breaks] using h
      · trivial
  | fork hs hchild =>
      simp only [Progress, hs] at h
      simpa [Progress, Action.breaks] using h
  | enter hs =>
      simp only [Progress, hs] at h
      apply progress_parentTest (by simpa [Action.breaks] using h) (Nat.zero_le n) _ rfl
      exact written_malloc n _
  | start hs =>
      simp only [Progress, hs] at h
      obtain ⟨hbroke, hi, hwritten⟩ := h
      have hnot : ¬ (broke ∨ false = true) := by simpa using hbroke
      exact ⟨hnot, hi, hwritten.concat _, List.sublist_append_right _ _⟩
  | @write i k t0 hs =>
      simp only [Progress, hs] at h
      obtain ⟨hbroke, hi, hwritten, htrip⟩ := h
      have hnot : ¬ (broke ∨ false = true) := by simpa using hbroke
      exact ⟨hnot, hi, hwritten.concat _, htrip.append (List.Sublist.refl [Event.wrote i])⟩
  | @read i k t0 hs hpos =>
      simp only [Progress, hs] at h
      obtain ⟨hbroke, hi, hwritten, htrip⟩ := h
      have hnot : ¬ (broke ∨ (Action.read (.count k)).breaks = true) := by
        cases k with
        | zero => exact absurd hpos (Nat.lt_irrefl 0)
        | succ k => simpa [Action.breaks] using hbroke
      exact ⟨hnot, hi, hwritten.concat _, htrip.append (List.Sublist.refl [Event.received i])⟩
  | record hs =>
      simp only [Progress, hs] at h
      obtain ⟨hbroke, hi, hwritten, htrip⟩ := h
      exact progress_parentTest (by simpa [Action.breaks] using hbroke) hi (hwritten.store hi htrip) rfl
  | broke hs ha =>
      have hbreaks : a.breaks = true := by rcases ha with rfl | rfl | rfl <;> rfl
      rcases hs with hs | hs
      · simp only [Progress, hs] at h
        exact progress_break h.2.1 h.2.2.1 (Or.inr hbreaks) rfl
      · simp only [Progress, hs] at h
        exact progress_break h.2.1 h.2.2.1 (Or.inr hbreaks) rfl
  | killed => trivial
  | leave hnext => rcases hnext with rfl | rfl | rfl <;> trivial
  | childEnter | childRead | childWrite | childKilled | childExit =>
      simpa [Progress, Action.breaks] using h
  | childLeft ha =>
      have hbreaks : a.breaks = false := by rcases ha with rfl | rfl | rfl <;> rfl
      rw [hbreaks]
      simpa [Progress] using h

theorem progress_run {label : String} {n : Nat} {actions : List Action} {s : State}
    (h : run label n actions = some s) : Progress n (∃ a ∈ actions, a.breaks = true) s := by
  refine invariant_runSchedule (I := fun actions s => Progress n (∃ a ∈ actions, a.breaks = true) s)
    (by simp [Progress, start]) ?_ h
  intro before a s s' _ hs hstep
  have hnext := progress_move hs (move_of_step hstep)
  simpa [List.mem_append, or_and_right, exists_or] using hnext

theorem measured_iff_of_written {label : String} {n k : Nat} {s : State} (hk : k ≤ n)
    (hwritten : Written n k s.s s.log) : Measured label n s ↔ 0 < n ∧ k = n := by
  obtain ⟨xs, rfl, hcells, hxs⟩ := hwritten
  constructor
  · rintro ⟨ys, line, sorted, hload, hreport, -⟩
    obtain ⟨hholds, hlen⟩ := loadFirst_eq_some_iff.mp hload
    have hle := length_le_of_holds (hcells ▸ hholds)
    refine ⟨Nat.pos_of_ne_zero ?_, by omega⟩
    rintro rfl
    obtain rfl := List.length_eq_zero_iff.mp (Nat.le_zero.mp hk)
    rw [hcells] at hreport
    cases hreport.symm.trans (Probe.report_empty label)
  · rintro ⟨hpos, hlen⟩
    have hholds : Holds s.s xs := hcells ▸ List.prefix_append _ _
    obtain ⟨line, sorted, hreport, hmedian, hp99, hmin⟩ :=
      Probe.report_of_holds Sample.value label hholds (hlen ▸ hpos)
    rw [hlen] at hreport
    exact ⟨xs, line, sorted, loadFirst_eq_some_iff.mpr ⟨hholds, hlen⟩, hreport, hxs,
      hxs _ hmedian, hxs _ hp99, hxs _ hmin⟩

/-- When `report` is called: all it uses was measured iff there was an iteration and no
write or read of the parent failed or met the end of the stream. -/
theorem probe_unix_measured_iff {label : String} {n : Nat} {actions : List Action} {s : State}
    (h : run label n actions = some s) (hreport : s.parent = .report) :
    Measured label n s ↔ 0 < n ∧ ∀ a ∈ actions, a.breaks = false := by
  have hprogress := progress_run h
  rw [Progress, hreport] at hprogress
  obtain ⟨k, hk, hwritten, hfull⟩ := hprogress
  rw [measured_iff_of_written hk hwritten, hfull]
  simp

def twoRoundTrips : List Action :=
  [.socketpair true, .fork true, .close, .childClose,
    .now 10, .write (.count 32), .childRead (.count 32), .childWrite (.count 32), .read (.count 32), .now 17,
    .now 20, .write (.count 32), .childRead (.count 32), .childWrite (.count 32), .read (.count 32), .now 25]

theorem probe_unix_measured_twoRoundTrips :
    (∃ s, run "AF_UNIX SOCK_STREAM" 2 twoRoundTrips = some s ∧ s.parent = .report) ∧
      ∀ s, run "AF_UNIX SOCK_STREAM" 2 twoRoundTrips = some s → s.parent = .report →
        Measured "AF_UNIX SOCK_STREAM" 2 s := by
  refine ⟨⟨_, rfl, rfl⟩, fun s hs hreport => ?_⟩
  exact (probe_unix_measured_iff hs hreport).mpr ⟨by decide, by decide⟩

/-- The child's first read fails, and the parent meets the end of the stream. -/
def childFailsFirst : List Action :=
  [.socketpair true, .fork true, .close, .childClose, .now 10, .write (.count 32), .childRead .failed,
    .childExit, .read (.count 0)]

theorem probe_unix_reports_unwritten :
    ¬ ∀ (label : String) (n : Nat) (actions : List Action) (s : State),
      run label n actions = some s → s.parent = .report → Measured label n s := by
  intro h
  obtain ⟨ys, line, sorted, hload, -⟩ := h "AF_UNIX SOCK_STREAM" 20000 childFailsFirst _ rfl rfl
  cases hload

end UnixSocket
