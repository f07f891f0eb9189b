/-
Slot accounting.

With distinct uuids every effect keeps the counter equal to the slots that
are out, unless a grant wraps it. `Reserve` does not look at the counter
again before it increments, so what bounds the counter is not `jobsMax` but
the number of calls between their check and their exchange: a check passes
with the counter below `jobsMax`, and at most the calls then running can
still add to it (`Exact.room`). With `jobsMax` slots and at most
`2 ^ 64 - jobsMax` calls at once the counter never wraps; with more, it
does (`wraps`).
-/
import Distplusplus.Server.Proofs.Booking
import Distplusplus.Server.Proofs.Tickets

namespace Distplusplus.Server

open Lib Common

variable {cfg : Config} {s t : State} {e : Event} {i : Nat} {c : Call}

/-- Uuids are distinct and the calls at once leave room for the slots. -/
def uncrowded (cfg : Config) (s : State) (e : Event) : Bool :=
  fresh s e && decide (s.inProgress + cfg.jobsMax.toNat ≤ 2 ^ 64)

/-- The counter is the number of slots out, and stays representable
whatever the calls in flight do. -/
structure Exact (s : State) : Prop where
  exact : s.jobsRunning.toNat = s.slots
  room : s.slots + s.inFlight < 2 ^ 64

/-- A cell that is ready to exchange is in flight. -/
theorem inFlight_pos {n : UInt64}
    (cell : s.calls[i]? = some (.reserve (.exchange n))) :
    1 ≤ s.inFlight :=
  countP_pos_of_getElem? _ cell rfl

theorem Exact.effect (h : Exact s) (hd : s.distinct)
    (hroom : s.inProgress + cfg.jobsMax.toNat ≤ 2 ^ 64)
    (he : Effect cfg s e t) : Exact t := by
  obtain ⟨m, hm⟩ := he.accounted
  have hslots : t.slots = m := hm.exact hd
  have hroom' : m + t.inFlight < 2 ^ 64 := by
    rcases hm.pressure with hle | ⟨heq, hlt, hle⟩
    · have := h.room
      omega
    · -- the check passed: the counter was below the limit
      have hlt := UInt64.lt_iff_toNat_lt.mp hlt
      have := h.exact
      omega
  refine ⟨?_, by omega⟩
  rw [hslots]
  refine hm.move.exact h.exact fun hgrant => ?_
  -- the call that exchanges is in flight itself
  obtain ⟨i, -, cell⟩ := hm.grant hgrant
  have := inFlight_pos cell
  have := h.room
  omega

/-- Every state of a run with distinct uuids and room. -/
theorem Exact.of_reaches {clock : Int}
    (h : Reaches (step cfg) (fun s e => uncrowded cfg s e = true)
      (State.start clock) s) : Exact s := by
  have hfresh : ∀ s e, uncrowded cfg s e = true → fresh s e = true :=
    fun s e hq => (Bool.and_eq_true_iff.mp hq).1
  refine h.invariant_with (I := State.distinct)
    (fun s hs => (Tickets.of_reaches hfresh hs).distinct_entries)
    ⟨rfl, Nat.two_pow_pos 64⟩ ?_
  intro s e t hd hs hq hse
  have hroom := of_decide_eq_true (Bool.and_eq_true_iff.mp hq).2
  exact hs.effect hd hroom (step_effect hse)

-- ============================================================== decrements

theorem reserving_le_inProgress (s : State) :
    s.reserving ≤ s.inProgress := by
  apply List.countP_mono_left
  intro c _ h
  cases c with
  | distribute => cases h
  | reserve phase => cases phase <;> first | rfl | cases h

theorem serving_le_inProgress (s : State) : s.serving ≤ s.inProgress := by
  apply List.countP_mono_left
  intro c _ h
  cases c with
  | reserve => cases h
  | distribute host request phase =>
      cases phase <;> first | rfl | cases h

/-- What an event takes back is out. -/
theorem takesBack_le_slots (s : State) (e : Event) :
    takesBack s e ≤ s.slots := by
  simp only [takesBack]
  split
  case h_1 i =>
    split
    case h_1 cell =>
      have := countP_pos_of_getElem? Call.reserving cell rfl
      simp only [State.slots, State.reserving]
      omega
    case h_2 cell =>
      have := countP_pos_of_getElem? Call.serving cell rfl
      simp only [State.slots, State.serving]
      omega
    case h_3 => exact Nat.zero_le _
  case h_2 => exact Nat.le_add_left _ _
  case h_3 => exact Nat.zero_le _

/-- An event that takes slots back subtracts just that many. -/
theorem jobsRunning_takesBack (h : step cfg s e = some t)
    (hpos : takesBack s e ≠ 0) :
    t.jobsRunning = s.jobsRunning - UInt64.ofNat (takesBack s e) := by
  simp only [step] at h
  split at h
  case isTrue => cases h
  case isFalse =>
    cases e with
    | advance i =>
        simp only [takesBack] at hpos ⊢
        simp only [advanceStep] at h
        split at hpos
        case h_1 cell =>
          simp only [cell, reserveStep] at h
          obtain rfl := Option.some.inj h
          rfl
        case h_2 cell =>
          simp only [cell, distributeCallStep] at h
          obtain rfl := Option.some.inj h
          rfl
        case h_3 => exact absurd rfl hpos
    | reaper =>
        cases hr : s.reaper with
        | erased timestamp diff =>
            simp only [reaperStep, hr] at h
            obtain rfl := Option.some.inj h
            simp only [takesBack, hr, ReaperPhase.pending]
        | loop => simp [takesBack, hr, ReaperPhase.pending] at hpos
        | stamped => simp [takesBack, hr, ReaperPhase.pending] at hpos
        | asleep => simp [takesBack, hr, ReaperPhase.pending] at hpos
        | stopped => simp [takesBack, hr, ReaperPhase.pending] at hpos
    | tick => exact absurd rfl hpos
    | reserve => exact absurd rfl hpos
    | distribute => exact absurd rfl hpos
    | generate => exact absurd rfl hpos
    | requestStop => exact absurd rfl hpos

-- ============================================================== the results

/-- The counter is the number of slots out, in every state of a run with
distinct uuids and at most `2 ^ 64 - jobsMax` calls at once. Nothing it is
lowered by was not in it, and once no call runs, the set is empty and the
reaper is not between its erasure and its subtraction, it is zero. -/
theorem jobsRunning_exact {clock : Int}
    (h : Reaches (step cfg) (fun s e => uncrowded cfg s e = true)
      (State.start clock) s) :
    s.jobsRunning.toNat = s.reservations.size + s.reserving + s.serving
        + s.reaper.pending ∧
    (∀ e t, step cfg s e = some t → takesBack s e ≠ 0 →
      takesBack s e ≤ s.jobsRunning.toNat ∧
      t.jobsRunning.toNat = s.jobsRunning.toNat - takesBack s e) ∧
    (s.inProgress = 0 → s.reservations.size = 0 → s.reaper.pending = 0 →
      s.jobsRunning = 0) := by
  have hx : Exact s := .of_reaches h
  refine ⟨hx.exact, ?_, ?_⟩
  · intro e t hse hpos
    have hle : takesBack s e ≤ s.jobsRunning.toNat := by
      rw [hx.exact]
      exact takesBack_le_slots s e
    refine ⟨hle, ?_⟩
    rw [jobsRunning_takesBack hse hpos, Move.toNat_sub_ofNat hle]
  · intro hidle hempty hpending
    have hr := reserving_le_inProgress s
    have hs := serving_le_inProgress s
    apply UInt64.toNat_inj.mp
    rw [hx.exact, State.slots]
    show _ = 0
    omega

/-- A reservation that is served: one job, one slot. -/
def servedRun : List Event :=
  .reserve :: reserveRun 0 "a".toList ++
    [.distribute plainHost (plainRequest "a".toList), .advance 1]

theorem jobsRunning_exact_served :
    ∃ s, runList (step ⟨1, 60⟩) (State.start 0) servedRun = some s ∧
      s.jobsRunning.toNat = 0 + 0 + 1 + 0 := by
  have hrun : runList (step ⟨1, 60⟩) (State.start 0) servedRun
      = some _ := rfl
  have h := jobsRunning_exact (Reaches.of_runList (fun _ _ h => h)
    servedRun hrun (by decide))
  exact ⟨_, hrun, h.1⟩

-- ================================================================= too many

/-- The call whose reservation is in the set. -/
def reserved : Call :=
  .reserve (.returned Status.ok ⟨true, some "a".toList⟩)

/-- One reservation, and a list of further calls. -/
def crowded (jobsRunning : UInt64) (others : List Call) : State where
  jobsRunning := jobsRunning
  reservations := Bag.empty.insert ⟨"a".toList, 0⟩
  calls := reserved :: others
  reaper := .loop
  clock := 0
  stop := false
  terminated := false
  log := [.inserted ⟨"a".toList, 0⟩, .generated "a".toList]

/-- Of the further calls `g` are past their exchange and `p` past their
check. -/
def crowd (g p : Nat) : State :=
  crowded (UInt64.ofNat (1 + g))
    (List.replicate g (.reserve .generate) ++
      List.replicate p (.reserve .load))

theorem crowd_slots (n : Nat) : (crowd n 0).slots = 1 + n := by
  simp [State.slots, State.reserving, State.serving, crowd, crowded,
    List.countP_replicate, Call.reserving, Call.serving, reserved,
    Bag.size_empty, ReaperPhase.pending]

/-- The first call has returned. -/
theorem crowded_inProgress (n : UInt64) (others : List Call) :
    (crowded n others).inProgress ≤ others.length := by
  show List.countP Call.inProgress (reserved :: others) ≤ _
  rw [List.countP_cons_of_neg (by decide)]
  exact List.countP_le_length

theorem crowd_inProgress (g p : Nat) : (crowd g p).inProgress ≤ g + p := by
  refine (crowded_inProgress _ _).trans (Nat.le_of_eq ?_)
  rw [List.length_append, List.length_replicate, List.length_replicate]

/-- A step of the first call after a prefix. -/
theorem crowded_advance (n n' : UInt64) (before after : List Call)
    (phase phase' : ReservePhase)
    (h : reserveStep ⟨2, 60⟩
        (crowded n (before ++ .reserve phase :: after)) (before.length + 1)
        phase
      = some { (crowded n (before ++ .reserve phase :: after)).setCall
          (before.length + 1) (.reserve phase') with jobsRunning := n' }) :
    step ⟨2, 60⟩ (crowded n (before ++ .reserve phase :: after))
        (.advance (before.length + 1))
      = some (crowded n' (before ++ .reserve phase' :: after)) := by
  have cell : (crowded n (before ++ .reserve phase :: after)).calls[
      before.length + 1]? = some (.reserve phase) := by
    simp [crowded]
  show advanceStep _ _ _ = _
  rw [advanceStep, cell]
  show reserveStep _ _ _ _ = _
  rw [h]
  simp [State.setCall, crowded]

/-- A call arrives and passes the check. -/
theorem crowd_enter (p : Nat) :
    ∃ s, step ⟨2, 60⟩ (crowd 0 p) .reserve = some s ∧
      s.inProgress ≤ p + 1 ∧
      step ⟨2, 60⟩ s (.advance (p + 1)) = some (crowd 0 (p + 1)) := by
  refine ⟨crowded 1 (List.replicate p (.reserve .load) ++ [.reserve .check]),
    rfl, ?_, ?_⟩
  · exact (crowded_inProgress _ _).trans (Nat.le_of_eq (by simp))
  · have h := crowded_advance 1 1 (List.replicate p (.reserve .load)) []
      .check .load rfl
    rw [List.length_replicate, ← List.replicate_succ'] at h
    exact h

/-- The first call past its check loads the counter and exchanges it. -/
theorem crowd_exchange (g p : Nat) :
    ∃ s, step ⟨2, 60⟩ (crowd g (p + 1)) (.advance (g + 1)) = some s ∧
      s.inProgress ≤ g + (p + 1) ∧
      step ⟨2, 60⟩ s (.advance (g + 1)) = some (crowd (g + 1) p) := by
  have hload := crowded_advance (UInt64.ofNat (1 + g))
    (UInt64.ofNat (1 + g)) (List.replicate g (.reserve .generate))
    (List.replicate p (.reserve .load)) .load
    (.exchange (UInt64.ofNat (1 + g))) rfl
  have hexchange := crowded_advance (UInt64.ofNat (1 + g))
    (UInt64.ofNat (1 + g) + 1) (List.replicate g (.reserve .generate))
    (List.replicate p (.reserve .load))
    (.exchange (UInt64.ofNat (1 + g))) .generate
    (by simp [reserveStep, crowded])
  rw [List.length_replicate] at hload hexchange
  refine ⟨_, hload, ?_, ?_⟩
  · exact (crowded_inProgress _ _).trans (Nat.le_of_eq (by simp))
  · have hn : UInt64.ofNat (1 + g) + 1 = UInt64.ofNat (1 + (g + 1)) :=
      (UInt64.ofNat_add (1 + g) 1).symm
    rw [hexchange, hn, crowd, List.replicate_succ', List.append_assoc]
    rfl

/-- Uuids are distinct, and the counter could count the calls at once. -/
def countable (s : State) (e : Event) : Bool :=
  fresh s e && decide (s.inProgress < 2 ^ 64)

theorem countable_of_lt (hlt : s.inProgress < 2 ^ 64)
    (hf : fresh s e = true) : countable s e = true := by
  rw [countable, hf, Bool.true_and, decide_eq_true hlt]

/-- Any number of calls that can be counted may pass the check together. -/
theorem reaches_crowd (n : Nat) (hn : n < 2 ^ 64) :
    Reaches (step ⟨2, 60⟩) (fun s e => countable s e = true)
      (State.start 0) (crowd 0 n) := by
  induction n with
  | zero =>
      exact Reaches.of_runList (fun _ _ h => h)
        (.reserve :: reserveRun 0 "a".toList) rfl (by decide)
  | succ p ih =>
      obtain ⟨s, harrive, hprogress, hcheck⟩ := crowd_enter p
      have hp := crowd_inProgress 0 p
      refine .step _ (.step _ (ih (by omega)) ?_ harrive) ?_ hcheck
      · exact countable_of_lt (by omega) rfl
      · exact countable_of_lt (by omega) rfl

/-- And then exchange one after the other. -/
theorem reaches_exchanged (n g : Nat) (hn : n < 2 ^ 64) (hg : g ≤ n) :
    Reaches (step ⟨2, 60⟩) (fun s e => countable s e = true)
      (State.start 0) (crowd g (n - g)) := by
  induction g with
  | zero => exact reaches_crowd n hn
  | succ g ih =>
      obtain ⟨s, hload, hprogress, hexchange⟩ :=
        crowd_exchange g (n - (g + 1))
      have hrest : n - g = n - (g + 1) + 1 := by omega
      have ih := ih (by omega)
      rw [hrest] at ih
      have hp := crowd_inProgress g (n - (g + 1) + 1)
      refine .step _ (.step _ ih ?_ hload) ?_ hexchange
      · exact countable_of_lt (by omega) rfl
      · exact countable_of_lt (by omega) rfl

/-- What goes wrong outside those bounds. With two slots, a reservation and
`2 ^ 64 - 1` calls at once, the counter wraps to zero. And between the
reaper's erasure and its subtraction the counter is one while no call runs
and the set is empty. -/
theorem jobsRunning_inexact :
    (∃ s, Reaches (step ⟨2, 60⟩) (fun s e => countable s e = true)
        (State.start 0) s ∧ s.inProgress < 2 ^ 64 ∧
        s.jobsRunning = 0 ∧ s.slots = 2 ^ 64) ∧
    (∃ s, Reaches (step ⟨1, 1⟩) (fun s e => countable s e = true)
        (State.start 0) s ∧ s.inProgress = 0 ∧ s.reservations.size = 0 ∧
        s.jobsRunning = 1) := by
  constructor
  · have hlt : 2 ^ 64 - 1 < 2 ^ 64 := by decide
    have hreach := reaches_exchanged (2 ^ 64 - 1) (2 ^ 64 - 1) hlt
      (Nat.le_refl _)
    rw [Nat.sub_self] at hreach
    refine ⟨_, hreach, ?_, ?_, ?_⟩
    · exact Nat.lt_of_le_of_lt (crowd_inProgress _ _) hlt
    · rfl
    · exact (crowd_slots _).trans rfl
  · exact ⟨_, Reaches.of_runList (fun _ _ h => h)
      (.reserve :: reserveRun 0 "a".toList ++ [.tick 1, .reaper,
        .reaper, .tick 1000000000, .reaper]) rfl (by decide),
      by decide, by decide, by decide⟩

end Distplusplus.Server
