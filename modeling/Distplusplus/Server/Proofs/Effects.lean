/-
What one step of the server can do.

`step` is a function on the source's phases; every invariant would have to
unfold it and split its branches again. This file does so once.

- `CallEffect`: a step of one call, from its old cell to its new one. What
  it does to the rest of the state is the last index.
- `ReaperEffect`: a step of the reaper.
- `Effect`: a step of the machine. `step_effect` says each is one of these.

The second half reads off the effects what every invariant needs: the log
only grows (`Effect.log_grows`), a cell is either kept, new, or moved by
its own effect (`Effect.cell`), and the counter moves as a ledger of the
slots that are out (`Effect.move`).
-/
import Distplusplus.Server.Machine

namespace Distplusplus.Server

open Lib Common

variable {cfg : Config} {s t : State} {e : Event} {i : Nat} {c c' : Call}

-- ================================================================= effects

/-- Phases whose step is the body's own and touches nothing shared. -/
def Phase.inner : Phase → Bool
  | .lookup | .launch _ _ _ _ | .leave _ | .returned _ _ | .terminate _ =>
      false
  | _ => true

/-- A call moves on and touches nothing shared. -/
inductive Quiet (cfg : Config) (s : State) (i : Nat) :
    Event → Call → Call → Prop
  | full (h : ¬s.jobsRunning < cfg.jobsMax) :
      Quiet cfg s i (.advance i) (.reserve .check)
        (.reserve (full cfg.jobsMax))
  | load :
      Quiet cfg s i (.advance i) (.reserve .load)
        (.reserve (.exchange s.jobsRunning))
  | lost (jobsCur : UInt64) (h : s.jobsRunning ≠ jobsCur) :
      Quiet cfg s i (.advance i) (.reserve (.exchange jobsCur))
        (.reserve (full s.jobsRunning))
  | throws :
      Quiet cfg s i (.generate i none) (.reserve .generate)
        (.reserve .unwind)
  | defused (uuid : Str) :
      Quiet cfg s i (.advance i) (.reserve (.defuse uuid))
        (.reserve (.returned Status.ok ⟨true, some uuid⟩))
  | body (host : Host) (request : CompileRequest) (phase : Phase)
      (h : phase.inner = true) :
      Quiet cfg s i (.advance i) (.distribute host request phase)
        (.distribute host request (distributeStep host request phase))

/-- A guard runs. -/
inductive Releases : Call → Call → Prop
  | unwind : Releases (.reserve .unwind) (.reserve .terminate)
  | leave (host : Host) (request : CompileRequest) (exit : Exit) :
      Releases (.distribute host request (.leave exit))
        (.distribute host request
          (distributeStep host request (.leave exit)))

/-- Call `i` takes a step from a cell to a cell; the last index is the
state with everything but the cell updated. -/
inductive CallEffect (cfg : Config) (s : State) (i : Nat) :
    Event → Call → Call → State → Prop
  | quiet {e : Event} {c c' : Call} (h : Quiet cfg s i e c c') :
      CallEffect cfg s i e c c' s
  | pass (h : s.jobsRunning < cfg.jobsMax) :
      CallEffect cfg s i (.advance i) (.reserve .check) (.reserve .load) s
  | grant :
      CallEffect cfg s i (.advance i)
        (.reserve (.exchange s.jobsRunning)) (.reserve .generate)
        { s with jobsRunning := s.jobsRunning + 1 }
  | generate (uuid : Str) :
      CallEffect cfg s i (.generate i (some uuid))
        (.reserve .generate) (.reserve (.insert uuid))
        { s with log := .generated uuid :: s.log }
  | insert (uuid : Str) (h : s.lockFree = true) :
      CallEffect cfg s i (.advance i)
        (.reserve (.insert uuid)) (.reserve (.defuse uuid))
        { s with
          reservations := s.reservations.insert ⟨uuid, s.clock⟩
          log := .inserted ⟨uuid, s.clock⟩ :: s.log }
  | release {c c' : Call} (h : Releases c c') :
      CallEffect cfg s i (.advance i) c c'
        { s with jobsRunning := s.jobsRunning - UInt64.ofNat 1 }
  | refuse (host : Host) (request : CompileRequest)
      (free : s.lockFree = true)
      (h : s.reservations.matching (·.uuid = request.uuid) = []) :
      CallEffect cfg s i (.advance i)
        (.distribute host request .lookup)
        (.distribute host request (refused request))
        { s with log := .presented i request.uuid s.clock [] :: s.log }
  | take (host : Host) (request : CompileRequest)
      (free : s.lockFree = true)
      (h : s.reservations.matching (·.uuid = request.uuid) ≠ []) :
      CallEffect cfg s i (.advance i)
        (.distribute host request .lookup)
        (.distribute host request .sanitize)
        { s with
          reservations := s.reservations.eraseIf (·.uuid = request.uuid)
          log := .presented i request.uuid s.clock
            (s.reservations.matching (·.uuid = request.uuid)) :: s.log }
  | launch (host : Host) (request : CompileRequest) (data : Str)
      (input output : Tempfile) (args : List Arg) :
      CallEffect cfg s i (.advance i)
        (.distribute host request (.launch data input output args))
        (.distribute host request (distributeStep host request
          (.launch data input output args)))
        { s with log := .started i request :: s.log }

/-- A step of the reaper. -/
inductive ReaperEffect (cfg : Config) (s : State) : State → Prop
  | stop (h : s.reaper = .loop) :
      ReaperEffect cfg s { s with reaper := .stopped }
  | stamp (h : s.reaper = .loop) :
      ReaperEffect cfg s { s with reaper := .stamped s.clock }
  | sleep (timestamp : Int) (h : s.reaper = .stamped timestamp) :
      ReaperEffect cfg s { s with reaper := .asleep timestamp s.clock }
  | reap (timestamp since : Int) (h : s.reaper = .asleep timestamp since)
      (slept : since + sleepTime cfg ≤ s.clock) :
      ReaperEffect cfg s { s with
        reservations := s.reservations.eraseBelow timestamp
        reaper := .erased timestamp (s.reservations.below timestamp).length
        log := .reaped timestamp s.clock (s.reservations.below timestamp)
          :: s.log }
  | subtract (timestamp : Int) (diff : Nat)
      (h : s.reaper = .erased timestamp diff) :
      ReaperEffect cfg s { s with
        jobsRunning := s.jobsRunning - UInt64.ofNat diff
        reaper := .loop }

/-- A call that has just arrived. -/
inductive Arrives : Event → Call → Prop
  | reserve : Arrives .reserve (.reserve .check)
  | distribute (host : Host) (request : CompileRequest) :
      Arrives (.distribute host request) (.distribute host request .lookup)

/-- A step of the machine. -/
inductive Effect (cfg : Config) (s : State) : Event → State → Prop
  | tick (ticks : Nat) :
      Effect cfg s (.tick ticks) { s with clock := s.clock + ticks }
  | requestStop : Effect cfg s .requestStop { s with stop := true }
  | die (i : Nat) : Effect cfg s (.advance i) { s with terminated := true }
  | arrive {e : Event} {c : Call} (h : Arrives e c) :
      Effect cfg s e { s with calls := s.calls ++ [c] }
  | call {e : Event} {i : Nat} {c c' : Call} {t : State}
      (cell : s.calls[i]? = some c) (h : CallEffect cfg s i e c c' t) :
      Effect cfg s e (t.setCall i c')
  | reaper {t : State} (h : ReaperEffect cfg s t) : Effect cfg s .reaper t

-- =============================================================== inversion

/-- A step of `Reserve` is one of the effects. -/
theorem reserveStep_effect {phase : ReservePhase}
    (cell : s.calls[i]? = some (.reserve phase))
    (h : reserveStep cfg s i phase = some t) :
    Effect cfg s (.advance i) t := by
  cases phase with
  | check =>
      simp only [reserveStep] at h
      split at h
      case isTrue hlt =>
        obtain rfl := Option.some.inj h
        exact .call cell (.pass hlt)
      case isFalse hge =>
        obtain rfl := Option.some.inj h
        exact .call cell (.quiet (.full hge))
  | load =>
      obtain rfl := Option.some.inj h
      exact .call cell (.quiet .load)
  | exchange jobsCur =>
      simp only [reserveStep] at h
      split at h
      case isTrue heq =>
        obtain rfl := Option.some.inj h
        subst heq
        exact .call cell .grant
      case isFalse hne =>
        obtain rfl := Option.some.inj h
        exact .call cell (.quiet (.lost _ hne))
  | generate => cases h
  | insert uuid =>
      simp only [reserveStep] at h
      split at h
      case isTrue free =>
        obtain rfl := Option.some.inj h
        exact .call cell (.insert uuid free)
      case isFalse => cases h
  | defuse uuid =>
      obtain rfl := Option.some.inj h
      exact .call cell (.quiet (.defused uuid))
  | unwind =>
      obtain rfl := Option.some.inj h
      exact .call cell (.release .unwind)
  | terminate =>
      obtain rfl := Option.some.inj h
      exact .die i
  | returned status answer => cases h

/-- A step of `Distribute` is one of the effects. -/
theorem distributeCallStep_effect {host : Host} {request : CompileRequest}
    {phase : Phase}
    (cell : s.calls[i]? = some (.distribute host request phase))
    (h : distributeCallStep s i host request phase = some t) :
    Effect cfg s (.advance i) t := by
  have inner : ∀ hin : phase.inner = true,
      Effect cfg s (.advance i) (s.setCall i (.distribute host request
        (distributeStep host request phase))) :=
    fun hin => .call cell (.quiet (.body host request phase hin))
  cases phase with
  | lookup =>
      simp only [distributeCallStep] at h
      split at h
      case isFalse => cases h
      case isTrue free =>
        split at h
        case isTrue hnone =>
          obtain rfl := Option.some.inj h
          rw [hnone]
          exact .call cell (.refuse host request free hnone)
        case isFalse hsome =>
          obtain rfl := Option.some.inj h
          exact .call cell (.take host request free hsome)
  | launch data input output args =>
      obtain rfl := Option.some.inj h
      exact .call cell (.launch host request data input output args)
  | leave exit =>
      obtain rfl := Option.some.inj h
      exact .call cell (.release (.leave host request exit))
  | terminate armed =>
      obtain rfl := Option.some.inj h
      exact .die i
  | returned status answer => cases h
  | sanitize => obtain rfl := Option.some.inj h; exact inner rfl
  | allowlist => obtain rfl := Option.some.inj h; exact inner rfl
  | decompress => obtain rfl := Option.some.inj h; exact inner rfl
  | makeInput data => obtain rfl := Option.some.inj h; exact inner rfl
  | makeOutput data input =>
      obtain rfl := Option.some.inj h; exact inner rfl
  | parse data input output =>
      obtain rfl := Option.some.inj h; exact inner rfl
  | answer input output process =>
      obtain rfl := Option.some.inj h; exact inner rfl

/-- A step of the reaper is one of the effects. -/
theorem reaperStep_effect (h : reaperStep cfg s = some t) :
    ReaperEffect cfg s t := by
  simp only [reaperStep] at h
  split at h
  case h_1 hr =>
    split at h
    · obtain rfl := Option.some.inj h
      exact .stop hr
    · obtain rfl := Option.some.inj h
      exact .stamp hr
  case h_2 timestamp hr =>
    obtain rfl := Option.some.inj h
    exact .sleep timestamp hr
  case h_3 timestamp since hr =>
    split at h
    case isTrue slept =>
      obtain rfl := Option.some.inj h
      exact .reap timestamp since hr slept
    case isFalse => cases h
  case h_4 timestamp diff hr =>
    obtain rfl := Option.some.inj h
    exact .subtract timestamp diff hr
  case h_5 => cases h

/-- Every step of the machine is one of the effects. -/
theorem step_effect (h : step cfg s e = some t) : Effect cfg s e t := by
  simp only [step] at h
  split at h
  case isTrue => cases h
  case isFalse =>
    cases e with
    | tick ticks =>
        obtain rfl := Option.some.inj h
        exact .tick ticks
    | requestStop =>
        obtain rfl := Option.some.inj h
        exact .requestStop
    | reserve =>
        obtain rfl := Option.some.inj h
        exact .arrive .reserve
    | distribute host request =>
        obtain rfl := Option.some.inj h
        exact .arrive (.distribute host request)
    | reaper => exact .reaper (reaperStep_effect h)
    | advance i =>
        simp only [advanceStep] at h
        split at h
        case h_1 phase cell => exact reserveStep_effect cell h
        case h_2 host request phase cell =>
          exact distributeCallStep_effect cell h
        case h_3 => cases h
    | generate i uuid =>
        simp only [generateStep] at h
        split at h
        case h_1 cell =>
          cases uuid with
          | some uuid =>
              obtain rfl := Option.some.inj h
              exact .call cell (.generate uuid)
          | none =>
              obtain rfl := Option.some.inj h
              exact .call cell (.quiet .throws)
        case h_2 => cases h

-- ================================================================== frames

theorem CallEffect.calls_eq (h : CallEffect cfg s i e c c' t) :
    t.calls = s.calls := by
  cases h <;> rfl

theorem CallEffect.reaper_eq (h : CallEffect cfg s i e c c' t) :
    t.reaper = s.reaper := by
  cases h <;> rfl

theorem CallEffect.clock_eq (h : CallEffect cfg s i e c c' t) :
    t.clock = s.clock := by
  cases h <;> rfl

theorem CallEffect.log_grows (h : CallEffect cfg s i e c c' t) :
    t.log = s.log ∨ ∃ note, t.log = note :: s.log := by
  cases h <;> first | exact .inl rfl | exact .inr ⟨_, rfl⟩

theorem ReaperEffect.calls_eq (h : ReaperEffect cfg s t) :
    t.calls = s.calls := by
  cases h <;> rfl

theorem ReaperEffect.clock_eq (h : ReaperEffect cfg s t) :
    t.clock = s.clock := by
  cases h <;> rfl

theorem ReaperEffect.log_grows (h : ReaperEffect cfg s t) :
    t.log = s.log ∨ ∃ note, t.log = note :: s.log := by
  cases h <;> first | exact .inl rfl | exact .inr ⟨_, rfl⟩

/-- The rule for a fact about each cell and the log: it stays true as the
log grows, holds of a new call, and is kept by a call's own step. -/
theorem Effect.cells {P : Nat → List Note → Call → Prop}
    (h : Effect cfg s e t)
    (grows : ∀ i log note c, P i log c → P i (note :: log) c)
    (arrives : ∀ i log c, Arrives e c → P i log c)
    (moves : ∀ i c c' u, P i s.log c → CallEffect cfg s i e c c' u →
      P i u.log c')
    (hs : ∀ i c, s.calls[i]? = some c → P i s.log c) :
    ∀ i c, t.calls[i]? = some c → P i t.log c := by
  have later : ∀ {log}, (log = s.log ∨ ∃ note, log = note :: s.log) →
      ∀ i c, P i s.log c → P i log c := by
    rintro log (rfl | ⟨note, rfl⟩) i c hp
    · exact hp
    · exact grows i _ note c hp
  cases h with
  | tick => exact hs
  | requestStop => exact hs
  | die => exact hs
  | arrive ha =>
      intro i c hc
      rcases getElem?_append_one_cases hc with ⟨-, rfl⟩ | hold
      · exact arrives i _ _ ha
      · exact hs i c hold
  | call cell hc =>
      intro j d hd
      rw [State.setCall, hc.calls_eq] at hd
      rcases getElem?_set_cases cell hd with ⟨rfl, rfl⟩ | ⟨-, hold⟩
      · have hmoved := moves _ _ _ _ (hs _ _ cell) hc
        exact hmoved
      · exact later hc.log_grows j d (hs j d hold)
  | reaper hr =>
      intro i c hc
      rw [hr.calls_eq] at hc
      exact later hr.log_grows i c (hs i c hc)

end Distplusplus.Server
