/-
The counter against the slots that are out.

`State.slots` counts every slot somebody still owes a decrement for. Each
effect moves the counter and the slots as one `Lib.Move`, except that a
lookup which finds one uuid several times turns several entries into one
job: then slots are lost, and the counter is left too high
(`Effect.move`: `t.slots ≤ m`, with equality when the uuids in the set are
pairwise distinct).

`Effect.pressure` is the other half: only a `Reserve` that passes its check
adds to what may still be granted.
-/
import Distplusplus.Server.Proofs.Effects
import Mathlib.Data.List.Nodup

namespace Distplusplus.Server

open Lib Common

variable {cfg : Config} {s t : State} {e : Event} {i : Nat} {c c' : Call}

-- =================================================================== cells

/-- What a cell adds to the slots. -/
def Call.weight (c : Call) : Nat :=
  (if c.reserving then 1 else 0) + (if c.serving then 1 else 0)

/-- Moving a cell moves the slots by its weight and by what happened to
the set. -/
theorem slots_setCall (cell : s.calls[i]? = some c) (c' : Call)
    (hcalls : t.calls = s.calls) (hreaper : t.reaper = s.reaper) :
    (t.setCall i c').slots + c.weight + s.reservations.size
      = s.slots + c'.weight + t.reservations.size := by
  have hr := countP_set_add Call.reserving cell (b := c')
  have hs := countP_set_add Call.serving cell (b := c')
  simp only [State.slots, State.reserving, State.serving, State.setCall,
    Call.weight, hcalls, hreaper]
  omega

/-- A new call is at neither end. -/
theorem Arrives.weight (h : Arrives e c) : c.weight = 0 := by
  cases h <;> rfl

theorem Arrives.inFlight (h : Arrives e c) : c.inFlight = false := by
  cases h <;> rfl

/-- Leaving the body keeps the guard armed. -/
theorem serving_destroyAll (host : Host) (request : CompileRequest)
    (nameMax : Nat) (files : List (Tempfile × List Str)) (exit : Exit) :
    (Call.distribute host request
      (destroyAll nameMax files exit)).serving = true := by
  rcases destroyAll_cases nameMax files exit with h | h <;> rw [h] <;> rfl

/-- Between the lookup and the guard every step keeps the guard armed. -/
theorem serving_distributeStep (host : Host) (request : CompileRequest)
    {phase : Phase} (hin : phase.inner = true ∨
      ∃ data input output args, phase = .launch data input output args) :
    Call.serving (.distribute host request phase) = true ∧
      Call.serving (.distribute host request
        (distributeStep host request phase)) = true := by
  cases phase with
  | lookup => simp [Phase.inner] at hin
  | leave => simp [Phase.inner] at hin
  | returned => simp [Phase.inner] at hin
  | terminate => simp [Phase.inner] at hin
  | sanitize => simp only [distributeStep]; split <;> exact ⟨rfl, rfl⟩
  | allowlist => simp only [distributeStep]; split <;> exact ⟨rfl, rfl⟩
  | decompress => simp only [distributeStep]; split <;> exact ⟨rfl, rfl⟩
  | makeInput => simp only [distributeStep]; split <;> exact ⟨rfl, rfl⟩
  | makeOutput =>
      simp only [distributeStep]
      split
      · exact ⟨rfl, serving_destroyAll ..⟩
      · exact ⟨rfl, rfl⟩
  | parse =>
      simp only [distributeStep]
      split
      · exact ⟨rfl, serving_destroyAll ..⟩
      · exact ⟨rfl, rfl⟩
  | launch =>
      simp only [distributeStep]
      split
      · exact ⟨rfl, serving_destroyAll ..⟩
      · exact ⟨rfl, rfl⟩
  | answer =>
      simp only [distributeStep]
      split <;> exact ⟨rfl, serving_destroyAll ..⟩

theorem weight_of_serving {host : Host} {request : CompileRequest}
    {phase : Phase}
    (h : Call.serving (.distribute host request phase) = true) :
    Call.weight (.distribute host request phase) = 1 := by
  simp [Call.weight, Call.reserving, h]

theorem Quiet.weight (h : Quiet cfg s i e c c') :
    c'.weight = c.weight := by
  cases h with
  | full => rfl
  | load => rfl
  | lost => rfl
  | throws => rfl
  | defused => rfl
  | body host request phase hin =>
      obtain ⟨hold, hnew⟩ :=
        serving_distributeStep host request (.inl hin)
      rw [weight_of_serving hold, weight_of_serving hnew]

/-- A quiet step puts no call in flight. -/
theorem Quiet.inFlight_le (h : Quiet cfg s i e c c') :
    (if c'.inFlight then 1 else 0) ≤ (if c.inFlight then 1 else 0) := by
  cases h <;> first | exact Nat.zero_le _ | exact Nat.le_refl 1

theorem Releases.weight (h : Releases c c') :
    c.weight = 1 ∧ c'.weight = 0 := by
  cases h with
  | unwind => exact ⟨rfl, rfl⟩
  | leave host request exit => cases exit <;> exact ⟨rfl, rfl⟩

theorem Releases.inFlight (h : Releases c c') :
    c.inFlight = false ∧ c'.inFlight = false := by
  cases h <;> exact ⟨rfl, rfl⟩

/-- A call's step moves the calls in progress by its cell alone. -/
theorem inProgress_setCall (cell : s.calls[i]? = some c) (c' : Call)
    (hcalls : t.calls = s.calls) :
    (t.setCall i c').inProgress + (if c.inProgress then 1 else 0)
      = s.inProgress + (if c'.inProgress then 1 else 0) := by
  have h := countP_set_add Call.inProgress cell (b := c')
  simp only [State.inProgress, State.setCall, hcalls]
  exact h

/-- A call's step moves the calls in flight by its cell alone. -/
theorem inFlight_setCall (cell : s.calls[i]? = some c) (c' : Call)
    (hcalls : t.calls = s.calls) :
    (t.setCall i c').inFlight + (if c.inFlight then 1 else 0)
      = s.inFlight + (if c'.inFlight then 1 else 0) := by
  have h := countP_set_add Call.inFlight cell (b := c')
  simp only [State.inFlight, State.setCall, hcalls]
  exact h

theorem inFlight_le_inProgress (s : State) : s.inFlight ≤ s.inProgress := by
  apply List.countP_mono_left
  intro c _ h
  cases c with
  | distribute => cases h
  | reserve phase => cases phase <;> first | rfl | cases h

-- ================================================================ the ledger

/-- The uuids in the set are pairwise distinct. -/
def State.distinct (s : State) : Prop :=
  (s.reservations.entries.map Reservation.uuid).Nodup

/-- A uuid that is in the set once is erased once. -/
theorem length_matching_of_distinct {bag : Bag Reservation.time}
    (hd : (bag.entries.map Reservation.uuid).Nodup) (uuid : Str) :
    (bag.matching (·.uuid = uuid)).length ≤ 1 := by
  have hcount := List.nodup_iff_count_le_one.mp hd uuid
  rw [List.count, List.countP_map] at hcount
  rw [Bag.matching, ← List.countP_eq_length_filter]
  refine Nat.le_trans (Nat.le_of_eq ?_) hcount
  apply List.countP_congr
  intro r _
  simp

/-- How a step accounts for the slots: `m` is the number the counter goes
on standing for. Only a successful exchange raises it, and only a passed
check raises what it may still come to. -/
structure Accounted (cfg : Config) (s : State) (e : Event) (t : State)
    (m : Nat) : Prop where
  move : Move s.jobsRunning s.slots t.jobsRunning m
  kept : t.slots ≤ m
  exact : s.distinct → t.slots = m
  grant : s.slots < m → ∃ i, e = .advance i ∧
    s.calls[i]? = some (.reserve (.exchange s.jobsRunning))
  pressure : m + t.inFlight ≤ s.slots + s.inFlight ∨
    (m = s.slots ∧ s.jobsRunning < cfg.jobsMax ∧ t.inFlight ≤ s.inProgress)

namespace Accounted

/-- Neither the counter nor the slots move. -/
theorem same (hjobs : t.jobsRunning = s.jobsRunning)
    (hslots : t.slots = s.slots) (hflight : t.inFlight ≤ s.inFlight) :
    Accounted cfg s e t s.slots where
  move := by rw [hjobs]; exact .stay
  kept := hslots.le
  exact := fun _ => hslots
  grant := fun h => absurd h (lt_irrefl _)
  pressure := .inl (Nat.add_le_add_left hflight _)

/-- Both go down by `k`. -/
theorem lower {k : Nat}
    (hjobs : t.jobsRunning = s.jobsRunning - UInt64.ofNat k)
    (hslots : s.slots = t.slots + k) (hflight : t.inFlight ≤ s.inFlight) :
    Accounted cfg s e t t.slots where
  move := by rw [hjobs]; exact .giveBack k _ hslots
  kept := Nat.le_refl _
  exact := fun _ => rfl
  grant := by omega
  pressure := .inl (by omega)

end Accounted

/-- The counter and the slots of a call's step. -/
theorem CallEffect.accounted (h : CallEffect cfg s i e c c' t)
    (cell : s.calls[i]? = some c) :
    ∃ m, Accounted cfg s e (t.setCall i c') m := by
  have hs := slots_setCall cell c' h.calls_eq h.reaper_eq
  have hf := inFlight_setCall cell c' h.calls_eq
  cases h with
  | quiet hq =>
      rw [hq.weight] at hs
      have hle := hq.inFlight_le
      exact ⟨_, .same rfl (by omega) (by omega)⟩
  | pass hlt =>
      have hp := inProgress_setCall (t := s) cell (.reserve .load) rfl
      have heq := Nat.add_right_cancel hs
      refine ⟨s.slots, .stay, heq.le, fun _ => heq, by omega,
        .inr ⟨rfl, hlt, ?_⟩⟩
      calc (s.setCall i (.reserve .load)).inFlight
          ≤ (s.setCall i (.reserve .load)).inProgress :=
            inFlight_le_inProgress _
        _ = s.inProgress := Nat.add_right_cancel hp
  | grant =>
      have heq := Nat.add_right_cancel hs
      have hflight : _ + 1 = s.inFlight := hf
      exact ⟨s.slots + 1, .grant, heq.le, fun _ => heq,
        fun _ => ⟨i, rfl, cell⟩, .inl (by omega)⟩
  | generate uuid =>
      have heq := Nat.add_right_cancel (Nat.add_right_cancel hs)
      exact ⟨_, .same rfl heq hf.le⟩
  | insert uuid free =>
      -- the entry takes over the slot of the call
      have hold : Call.weight (.reserve (.insert uuid)) = 1 := rfl
      have hnew : Call.weight (.reserve (.defuse uuid)) = 0 := rfl
      rw [hold, hnew, Bag.size_insert] at hs
      exact ⟨_, .same rfl (by omega) hf.le⟩
  | release hr =>
      rw [hr.weight.1, hr.weight.2] at hs
      rw [hr.inFlight.1, hr.inFlight.2] at hf
      exact ⟨_, .lower rfl (Nat.add_right_cancel hs).symm hf.le⟩
  | refuse host request free hnone =>
      exact ⟨_, .same rfl (Nat.add_right_cancel hs) hf.le⟩
  | take host request free hsome =>
      -- the job takes over the slot of one entry; any further are lost
      have hsize := s.reservations.size_eraseIf (·.uuid = request.uuid)
      have hpos := List.length_pos_iff.mpr hsome
      have hold : Call.weight (.distribute host request .lookup) = 0 := rfl
      have hnew : Call.weight (.distribute host request .sanitize) = 1 := rfl
      rw [hold, hnew] at hs
      dsimp only at hs
      refine ⟨s.slots, .stay, by omega, fun hd => ?_, by omega,
        .inl (Nat.add_le_add_left hf.le _)⟩
      have hone := length_matching_of_distinct hd request.uuid
      omega
  | launch host request data input output args =>
      obtain ⟨hold, hnew⟩ := serving_distributeStep host request
        (.inr ⟨data, input, output, args, rfl⟩)
      rw [weight_of_serving hold, weight_of_serving hnew] at hs
      have heq := Nat.add_right_cancel (Nat.add_right_cancel hs)
      exact ⟨_, .same rfl heq hf.le⟩

/-- The counter and the slots of the reaper's step: what it erases becomes
pending, and what is pending is subtracted. -/
theorem ReaperEffect.accounted (h : ReaperEffect cfg s t) :
    ∃ m, Accounted cfg s e t m := by
  cases h with
  | stop hr =>
      exact ⟨_, .same rfl (by simp only [State.slots, hr]; rfl) le_rfl⟩
  | stamp hr =>
      exact ⟨_, .same rfl (by simp only [State.slots, hr]; rfl) le_rfl⟩
  | sleep timestamp hr =>
      exact ⟨_, .same rfl (by simp only [State.slots, hr]; rfl) le_rfl⟩
  | reap timestamp since hr slept =>
      have hsize := s.reservations.size_eraseBelow timestamp
      refine ⟨_, .same rfl ?_ le_rfl⟩
      simp only [State.slots, State.reserving, State.serving, hr,
        ReaperPhase.pending]
      omega
  | subtract timestamp diff hr =>
      refine ⟨_, .lower rfl ?_ le_rfl⟩
      simp only [State.slots, State.reserving, State.serving, hr,
        ReaperPhase.pending]
      omega

/-- The counter and the slots of any step. -/
theorem Effect.accounted (h : Effect cfg s e t) :
    ∃ m, Accounted cfg s e t m := by
  cases h with
  | tick => exact ⟨_, .same rfl rfl le_rfl⟩
  | requestStop => exact ⟨_, .same rfl rfl le_rfl⟩
  | die => exact ⟨_, .same rfl rfl le_rfl⟩
  | arrive ha =>
      have hw := ha.weight
      simp only [Call.weight] at hw
      refine ⟨_, .same rfl ?_ ?_⟩
      · simp only [State.slots, State.reserving, State.serving,
          List.countP_append, List.countP_singleton]
        omega
      · simp only [State.inFlight, List.countP_append,
          List.countP_singleton, ha.inFlight]
        exact Nat.le_refl _
  | call cell hc => exact hc.accounted cell
  | reaper hr => exact hr.accounted

end Distplusplus.Server
