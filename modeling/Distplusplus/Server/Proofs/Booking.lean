/-
Overbooking.

`Reserve` compares the counter with `jobsMax`, loads it again, and exchanges
the second value. Between the two loads another call can take the last
slot: then the exchange succeeds from `jobsMax` and the server has one
grant more than it has slots (`overbooked`).

That window is the only way. A run whose successful exchanges all start
below `jobsMax` stays within it (`booked_within`), whatever the uuids, the
clients and the reaper do: the counter covers the slots that are out, so no
decrement wraps, and a limit that every grant starts below bounds a counter
that never wraps (`Move.bounded`).
-/
import Distplusplus.Server.Proofs.Accounting

namespace Distplusplus.Server

open Lib Common

variable {cfg : Config} {s t : State} {e : Event}

/-- An exchange that will succeed starts below the limit. -/
def exchangesBelow (cfg : Config) (s : State) : Event → Bool
  | .advance i =>
      match s.calls[i]? with
      | some (.reserve (.exchange jobsCur)) =>
          decide (s.jobsRunning = jobsCur → s.jobsRunning < cfg.jobsMax)
      | _ => true
  | _ => true

theorem exchangesBelow_of_exchange {i : Nat}
    (hq : exchangesBelow cfg s e = true)
    (he : e = .advance i)
    (cell : s.calls[i]? = some (.reserve (.exchange s.jobsRunning))) :
    s.jobsRunning < cfg.jobsMax := by
  subst he
  simpa [exchangesBelow, cell] using hq

/-- The counter covers the slots and stays within the limit. -/
structure Booked (cfg : Config) (s : State) : Prop where
  covers : s.slots ≤ s.jobsRunning.toNat
  within : s.jobsRunning.toNat ≤ cfg.jobsMax.toNat

theorem Booked.step (h : Booked cfg s) (hq : exchangesBelow cfg s e = true)
    (hse : step cfg s e = some t) : Booked cfg t := by
  obtain ⟨m, hm⟩ := (step_effect hse).accounted
  have hbelow : s.slots < m → s.jobsRunning.toNat < cfg.jobsMax.toNat := by
    intro hlt
    obtain ⟨i, he, cell⟩ := hm.grant hlt
    exact UInt64.lt_iff_toNat_lt.mp (exchangesBelow_of_exchange hq he cell)
  have hmax : cfg.jobsMax.toNat < 2 ^ 64 := cfg.jobsMax.toNat_lt
  have hcovers : m ≤ t.jobsRunning.toNat :=
    hm.move.covers h.covers fun hlt => by
      have := hbelow hlt
      omega
  exact ⟨hm.kept.trans hcovers,
    hm.move.bounded h.covers hmax h.within hbelow⟩

/-- Every state of a run whose exchanges start below the limit. -/
theorem Booked.of_reaches {clock : Int}
    (h : Reaches (Server.step cfg) (fun s e => exchangesBelow cfg s e = true)
      (State.start clock) s) : Booked cfg s := by
  refine h.invariant ⟨Nat.le_refl _, Nat.zero_le _⟩ ?_
  intro s e t hs hq hse
  exact hs.step hq hse

theorem granted_le_slots (s : State) : s.granted ≤ s.slots := by
  simp only [State.granted, State.slots]
  omega

/-- An exchange that succeeds raises the counter. -/
theorem step_exchange {i : Nat}
    (cell : s.calls[i]? = some (.reserve (.exchange s.jobsRunning)))
    (hse : step cfg s (.advance i) = some t) :
    t.jobsRunning = s.jobsRunning + 1 := by
  simp only [Server.step, advanceStep, cell, reserveStep, if_pos] at hse
  split at hse
  case isTrue => cases hse
  case isFalse =>
    obtain rfl := Option.some.inj hse
    rfl

/-- From a state within the limit, a step that breaks the condition breaks
the limit, unless the limit is the largest number there is. -/
theorem Booked.overbooks (h : Booked cfg s)
    (hmax : cfg.jobsMax.toNat + 1 < 2 ^ 64)
    (hq : exchangesBelow cfg s e = false)
    (hse : Server.step cfg s e = some t) : cfg.jobsMax < t.jobsRunning := by
  simp only [exchangesBelow] at hq
  split at hq
  case h_2 => cases hq
  case h_1 i =>
    split at hq
    case h_2 => cases hq
    case h_1 jobsCur cell =>
      obtain ⟨rfl, hlimit⟩ := Classical.not_imp.mp (of_decide_eq_false hq)
      have heq := step_exchange cell hse
      rw [UInt64.lt_iff_toNat_lt, Nat.not_lt] at hlimit
      have hwithin := h.within
      rw [heq, UInt64.lt_iff_toNat_lt, Move.toNat_succ (by omega)]
      omega

-- ============================================================== the results

/-- As long as each successful exchange starts below `jobsMax`, the counter
never exceeds it and neither do the reservations and running jobs. The
first exchange that does not is the one that overbooks. -/
theorem booked_within {clock : Int}
    (h : Reaches (Server.step cfg) (fun s e => exchangesBelow cfg s e = true)
      (State.start clock) s) :
    s.jobsRunning ≤ cfg.jobsMax ∧ s.granted ≤ cfg.jobsMax.toNat ∧
      (cfg.jobsMax.toNat + 1 < 2 ^ 64 →
        ∀ e t, exchangesBelow cfg s e = false →
          Server.step cfg s e = some t → cfg.jobsMax < t.jobsRunning) := by
  have hb : Booked cfg s := .of_reaches h
  refine ⟨UInt64.le_iff_toNat_le.mpr hb.within, ?_,
    fun hmax _ _ hq hse => hb.overbooks hmax hq hse⟩
  exact (granted_le_slots s).trans (hb.covers.trans hb.within)

/-- A whole reservation. -/
def reserveRun (i : Nat) (uuid : Str) : List Event :=
  [.advance i, .advance i, .advance i, .generate i (some uuid), .advance i,
    .advance i]

/-- One slot, one reservation, and a second call that finds it taken. -/
def oneSlotRun : List Event :=
  [.reserve, .reserve] ++ reserveRun 0 "a".toList ++ [.advance 1]

theorem booked_within_one_slot :
    ∃ s, runList (Server.step ⟨1, 60⟩) (State.start 0) oneSlotRun = some s ∧
      s.jobsRunning ≤ 1 ∧ s.granted ≤ 1 := by
  have hrun : runList (Server.step ⟨1, 60⟩) (State.start 0) oneSlotRun
      = some _ := rfl
  have h := booked_within (Reaches.of_runList (fun _ _ h => h) oneSlotRun
    hrun (by decide))
  exact ⟨_, hrun, h.1, h.2.1⟩

/-- Two calls pass the check before either exchanges. -/
def twoCallsRun : List Event :=
  [.reserve, .reserve, .advance 0, .advance 1,
    .advance 0, .advance 0, .generate 0 (some "a".toList), .advance 0,
    .advance 0,
    .advance 1, .advance 1, .generate 1 (some "b".toList), .advance 1,
    .advance 1]

/-- One slot, two reservations. -/
theorem overbooked :
    ∃ s, Reaches (Server.step ⟨1, 60⟩) (fun _ _ => True) (State.start 0) s ∧
      s.jobsRunning = 2 ∧ s.granted = 2 ∧ ¬ s.jobsRunning ≤ 1 :=
  ⟨_, Reaches.of_runList (q := fun _ _ => true) (fun _ _ _ => trivial)
    twoCallsRun rfl (by decide), by decide, by decide, by decide⟩

end Distplusplus.Server
