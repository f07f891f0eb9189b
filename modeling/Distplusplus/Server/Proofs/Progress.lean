/-
Nothing on the server waits for ever.

No call can be kept running by the others: what loses a race returns "host
is full" and does not try again, so each step of a call is one less before
it (`Call.rank`), and a call takes at most eleven in any run
(`steps_bounded`). And none can be kept waiting: the only thing a call waits
for is `reservationLock`, and only the reaper holds it across a step, which
it can always take (`call_finishes`).

The slots come back too. Calls that have returned hold none, a pass of the
reaper takes the reservations nobody came for, and the counter is exact. So
from every state of a run, unless a call in progress is about to abort the
process, the server can get back to where it started and grant again
(`slots_come_back`): no slot is lost for good.
-/
import Distplusplus.Server.Proofs.Lifetime
import Distplusplus.Server.Proofs.Slots
import Mathlib.Data.Fintype.EquivFin
import Mathlib.Data.Fintype.List

namespace Distplusplus.Server

open Lib Common

variable {cfg : Config} {s t : State} {e : Event} {i j : Nat} {c c' : Call}
variable {host : Host} {request : CompileRequest} {phase : Phase}

-- ================================================================ the rank

/-- The steps a `Reserve` call has before it, at most. -/
def ReservePhase.rank : ReservePhase → Nat
  | .check => 6
  | .load => 5
  | .exchange _ => 4
  | .generate => 3
  | .insert _ | .unwind => 2
  | .defuse _ | .terminate => 1
  | .returned _ _ => 0

/-- The steps a `Distribute` call has before it, at most. -/
def Phase.rank : Phase → Nat
  | .lookup => 11
  | .sanitize => 10
  | .allowlist => 9
  | .decompress => 8
  | .makeInput _ => 7
  | .makeOutput _ _ => 6
  | .parse _ _ _ => 5
  | .launch _ _ _ _ => 4
  | .answer _ _ _ => 3
  | .leave _ => 2
  | .terminate _ => 1
  | .returned _ _ => 0

def Call.rank : Call → Nat
  | .reserve phase => phase.rank
  | .distribute _ _ phase => phase.rank

/-- The steps call `i` has before it; one that has not arrived may still
have them all. -/
def State.rank (s : State) (i : Nat) : Nat :=
  if s.terminated then 0 else (s.calls[i]?.map Call.rank).getD 11

/-- A step of call `i`. -/
def Event.own (i : Nat) : Event → Bool
  | .advance j | .generate j _ => j == i
  | _ => false

theorem rank_destroyAll (nameMax : Nat) (files : List (Tempfile × List Str))
    (exit : Exit) : (destroyAll nameMax files exit).rank < 3 := by
  rcases destroyAll_cases nameMax files exit with h | h <;> rw [h] <;>
    simp [Phase.rank]

/-- Every step of the body is one less before it. -/
theorem rank_distributeStep (host : Host) (request : CompileRequest)
    (hl : phase ≠ .lookup)
    (ht : ∀ armed, phase ≠ .terminate armed)
    (hr : ∀ status answer, phase ≠ .returned status answer) :
    (distributeStep host request phase).rank < phase.rank := by
  have hdestroy : ∀ files exit n, 3 ≤ n →
      (destroyAll host.nameMax files exit).rank < n := fun files exit n hn =>
    Nat.lt_of_lt_of_le (rank_destroyAll host.nameMax files exit) hn
  cases phase with
  | lookup => exact absurd rfl hl
  | terminate armed => exact absurd rfl (ht armed)
  | returned status answer => exact absurd rfl (hr status answer)
  | leave exit => cases exit <;> simp [distributeStep, Phase.rank]
  | sanitize => simp only [distributeStep]; split <;> simp [Phase.rank]
  | allowlist => simp only [distributeStep]; split <;> simp [Phase.rank]
  | decompress => simp only [distributeStep]; split <;> simp [Phase.rank]
  | makeInput data => simp only [distributeStep]; split <;> simp [Phase.rank]
  | makeOutput data input =>
      simp only [distributeStep]
      split
      · exact hdestroy _ _ _ (by simp [Phase.rank])
      · simp [Phase.rank]
  | parse data input output =>
      simp only [distributeStep]
      split
      · exact hdestroy _ _ _ (by simp [Phase.rank])
      · simp [Phase.rank]
  | launch data input output args =>
      simp only [distributeStep]
      split
      · exact hdestroy _ _ _ (by simp [Phase.rank])
      · simp [Phase.rank]
  | answer input output process =>
      simp only [distributeStep]
      split <;> exact hdestroy _ _ _ (Nat.le_refl 3)

theorem Call.rank_le (c : Call) : c.rank ≤ 11 := by
  cases c with
  | reserve phase => cases phase <;> simp [Call.rank, ReservePhase.rank]
  | distribute host request phase =>
      cases phase <;> simp [Call.rank, Phase.rank]

/-- So is every step of a call. -/
theorem CallEffect.rank_lt (h : CallEffect cfg s i e c c' t) :
    c'.rank < c.rank := by
  cases h with
  | quiet hq =>
      cases hq with
      | body host request phase hin =>
          exact rank_distributeStep host request (by rintro rfl; cases hin)
            (by rintro _ rfl; cases hin) (by rintro _ _ rfl; cases hin)
      | _ => simp [Call.rank, ReservePhase.rank, full]
  | release hr =>
      cases hr with
      | unwind => simp [Call.rank, ReservePhase.rank]
      | leave host request exit =>
          exact rank_distributeStep host request nofun nofun nofun
  | launch host request data input output args =>
      exact rank_distributeStep host request nofun nofun nofun
  | refuse => simp [Call.rank, Phase.rank, refused]
  | take => simp [Call.rank, Phase.rank]
  | _ => simp [Call.rank, ReservePhase.rank]

theorem CallEffect.own (h : CallEffect cfg s i e c c' t) :
    e.own i = true := by
  cases h with
  | quiet hq => cases hq <;> simp [Event.own]
  | release hr => cases hr <;> simp [Event.own]
  | _ => simp [Event.own]

theorem CallEffect.terminated_eq (h : CallEffect cfg s i e c c' t) :
    t.terminated = s.terminated := by
  cases h <;> rfl

theorem CallEffect.stop_eq (h : CallEffect cfg s i e c c' t) :
    t.stop = s.stop := by
  cases h <;> rfl

theorem ReaperEffect.terminated_eq (h : ReaperEffect cfg s t) :
    t.terminated = s.terminated := by
  cases h <;> rfl

/-- An own step is taken by a cell with steps before it. -/
theorem step_own_pos (ho : e.own i = true) (h : step cfg s e = some t) :
    0 < s.rank i := by
  simp only [step] at h
  split at h
  case isTrue => cases h
  case isFalse hlive =>
    rw [State.rank, if_neg hlive]
    cases e with
    | advance j =>
        obtain rfl : j = i := by simpa [Event.own] using ho
        simp only [advanceStep] at h
        split at h
        case h_1 phase cell =>
          rw [cell]
          cases phase <;> first | exact Nat.zero_lt_succ _ | cases h
        case h_2 host request phase cell =>
          rw [cell]
          cases phase <;> first | exact Nat.zero_lt_succ _ | cases h
        case h_3 => cases h
    | generate j uuid =>
        obtain rfl : j = i := by simpa [Event.own] using ho
        simp only [generateStep] at h
        split at h
        case h_1 cell =>
          rw [cell]
          exact Nat.zero_lt_succ _
        case h_2 => cases h
    | _ => cases ho

/-- A step rewrites cells; the rank of a call is moved by its own. -/
theorem rank_step (h : step cfg s e = some t) :
    (e.own i = true → t.rank i < s.rank i) ∧
      (e.own i = false → t.rank i ≤ s.rank i) := by
  have hpos := fun ho => step_own_pos (i := i) ho h
  have hlive : s.terminated = false := by
    simp only [step] at h
    split at h
    case isTrue => cases h
    case isFalse hlive => simpa using hlive
  have hrank : ∀ u : State, u.terminated = s.terminated →
      u.rank i = (u.calls[i]?.map Call.rank).getD 11 := by
    intro u hu
    rw [State.rank, hu, hlive]
    rfl
  have hsame : ∀ u : State, u.terminated = s.terminated →
      u.calls = s.calls → u.rank i = s.rank i := by
    intro u hu hcalls
    rw [hrank u hu, hrank s rfl, hcalls]
  cases step_effect h with
  | tick =>
      exact ⟨fun ho => absurd ho Bool.false_ne_true,
        fun _ => Nat.le_of_eq (hsame _ rfl rfl)⟩
  | requestStop =>
      exact ⟨fun ho => absurd ho Bool.false_ne_true,
        fun _ => Nat.le_of_eq (hsame _ rfl rfl)⟩
  | reaper hr =>
      exact ⟨fun ho => absurd ho Bool.false_ne_true, fun _ => Nat.le_of_eq
        (hsame _ hr.terminated_eq hr.calls_eq)⟩
  | die j =>
      have hzero : State.rank { s with terminated := true } i = 0 := rfl
      exact ⟨fun ho => hzero ▸ hpos ho, fun _ => Nat.zero_le _⟩
  | arrive ha =>
      have hno : e.own i = false := by cases ha <;> rfl
      refine ⟨fun ho => absurd ho (by rw [hno]; exact Bool.false_ne_true),
        fun _ => ?_⟩
      rw [hrank { s with calls := s.calls ++ [_] } rfl, hrank s rfl]
      dsimp only
      rcases Nat.lt_or_ge i s.calls.length with hlt | hge
      · rw [List.getElem?_append_left hlt]
      · rw [List.getElem?_eq_none hge]
        cases (s.calls ++ [_])[i]? with
        | none => exact Nat.le_refl _
        | some c => exact c.rank_le
  | call cell hc =>
      rename_i j c c' u
      rw [hrank (u.setCall j c') hc.terminated_eq, hrank s rfl]
      simp only [State.setCall, hc.calls_eq]
      by_cases hij : j = i
      · subst hij
        obtain ⟨hi, -⟩ := List.getElem?_eq_some_iff.mp cell
        rw [List.getElem?_set_self hi, cell]
        have hlt := hc.rank_lt
        exact ⟨fun _ => hlt, fun _ => Nat.le_of_lt hlt⟩
      · rw [List.getElem?_set_ne hij]
        refine ⟨fun ho => absurd ?_ hij, fun _ => Nat.le_refl _⟩
        have hj := hc.own
        cases e <;> simp_all [Event.own]

/-- A call that has returned has no steps before it, and one that is on its
way to abort the process has one. -/
theorem Call.rank_eq_zero : c.rank = 0 ↔ c.inProgress = false := by
  cases c with
  | reserve phase =>
      cases phase <;> simp [Call.rank, ReservePhase.rank, Call.inProgress]
  | distribute host request phase =>
      cases phase <;> simp [Call.rank, Phase.rank, Call.inProgress]

-- =============================================================== enabledness

/-- Some uuid was never generated. -/
theorem exists_fresh (s : State) (i : Nat) :
    ∃ uuid, fresh s (.generate i (some uuid)) = true := by
  obtain ⟨uuid, hnew⟩ := Infinite.exists_notMem_finset
    (generated s.log).toFinset
  exact ⟨uuid, decide_eq_true fun hmem => hnew (List.mem_toFinset.mpr hmem)⟩

/-- While nobody holds the lock, a call with steps before it can take the
next. The generator may answer it with a new uuid. -/
theorem step_enabled (cfg : Config) (hlive : s.terminated = false)
    (hfree : s.lockFree = true) (cell : s.calls[i]? = some c)
    (hrank : c.rank ≠ 0) :
    ∃ e t, e.own i = true ∧ fresh s e = true ∧ e ≠ .generate i none ∧
      step cfg s e = some t := by
  have advance : ∀ t, advanceStep cfg s i = some t → ∃ e t,
      e.own i = true ∧ fresh s e = true ∧ e ≠ .generate i none ∧
        step cfg s e = some t := fun t ht =>
    ⟨.advance i, t, by simp [Event.own], rfl, nofun, by
      rw [step, hlive]
      exact ht⟩
  cases c with
  | reserve phase =>
      by_cases hgenerate : phase = .generate
      · subst hgenerate
        obtain ⟨uuid, hfresh⟩ := exists_fresh s i
        have hstep : ∃ t, step cfg s (.generate i (some uuid)) = some t := by
          rw [step, hlive]
          simp only [Bool.false_eq_true, if_false, generateStep, cell]
          exact ⟨_, rfl⟩
        obtain ⟨t, ht⟩ := hstep
        exact ⟨_, t, by simp [Event.own], hfresh, by simp, ht⟩
      · have hstep : ∃ t, reserveStep cfg s i phase = some t := by
          cases phase with
          | generate => exact absurd rfl hgenerate
          | returned => exact absurd rfl hrank
          | insert uuid => exact ⟨_, by rw [reserveStep, if_pos hfree]⟩
          | check => simp only [reserveStep]; split <;> exact ⟨_, rfl⟩
          | exchange jobsCur =>
              simp only [reserveStep]; split <;> exact ⟨_, rfl⟩
          | _ => exact ⟨_, rfl⟩
        obtain ⟨t, ht⟩ := hstep
        exact advance t (by rw [advanceStep, cell]; exact ht)
  | distribute host request phase =>
      have hstep : ∃ t, distributeCallStep s i host request phase = some t := by
        cases phase with
        | returned => exact absurd rfl hrank
        | lookup =>
            simp only [distributeCallStep, if_pos hfree]
            split <;> exact ⟨_, rfl⟩
        | _ => exact ⟨_, rfl⟩
      obtain ⟨t, ht⟩ := hstep
      exact advance t (by rw [advanceStep, cell]; exact ht)

-- ================================================================= finishing

/-- A call that is in `std::terminate`. -/
def Call.terminating : Call → Bool
  | .reserve .terminate | .distribute _ _ (.terminate _) => true
  | _ => false

theorem reserveStep_terminated {phase : ReservePhase}
    (h : reserveStep cfg s i phase = some t) :
    phase = .terminate ∨ t.terminated = s.terminated := by
  cases phase <;> grind [reserveStep, State.setCall]

theorem distributeCallStep_terminated
    (h : distributeCallStep s i host request phase = some t) :
    (∃ armed, phase = .terminate armed) ∨ t.terminated = s.terminated := by
  cases phase <;> grind [distributeCallStep, State.setCall]

/-- Only such a call ends the process. -/
theorem step_terminates (h : step cfg s e = some t)
    (hlive : s.terminated = false) (ht : t.terminated = true) :
    ∃ i c, e = .advance i ∧ s.calls[i]? = some c ∧ c.terminating = true := by
  have hno : t.terminated ≠ s.terminated := by
    rw [ht, hlive]
    exact Bool.true_eq_false.mp
  obtain ⟨i, rfl⟩ : ∃ i, e = .advance i := by
    cases step_effect h with
    | die i => exact ⟨i, rfl⟩
    | tick => exact absurd rfl hno
    | requestStop => exact absurd rfl hno
    | arrive => exact absurd rfl hno
    | call cell hc => exact absurd hc.terminated_eq hno
    | reaper hr => exact absurd hr.terminated_eq hno
  rw [step, hlive] at h
  simp only [Bool.false_eq_true, if_false, advanceStep] at h
  split at h
  case h_3 => cases h
  case h_1 phase cell =>
    obtain rfl := (reserveStep_terminated h).resolve_right hno
    exact ⟨i, _, rfl, cell, rfl⟩
  case h_2 host request phase cell =>
    obtain ⟨armed, rfl⟩ := (distributeCallStep_terminated h).resolve_right hno
    exact ⟨i, _, rfl, cell, rfl⟩

/-- A call's own step ends the process, or moves the call and no other. -/
theorem step_own (ho : e.own i = true) (hlive : s.terminated = false)
    (cell : s.calls[i]? = some c) (h : step cfg s e = some t) :
    (c.terminating = true ∧ t.terminated = true) ∨
      ∃ c' u, CallEffect cfg s i e c c' u ∧ t = u.setCall i c' := by
  have hsame : ∀ {j}, e.own j = true → j = i := by
    intro j hj
    cases e <;> simp_all [Event.own]
  cases step_effect h with
  | tick => cases ho
  | requestStop => cases ho
  | reaper => cases ho
  | arrive ha => cases ha <;> cases ho
  | call cell' hc =>
      obtain rfl := hsame hc.own
      obtain rfl := Option.some.inj (cell.symm.trans cell')
      exact .inr ⟨_, _, hc, rfl⟩
  | die j =>
      obtain ⟨k, d, he, cell', hd⟩ := step_terminates h hlive rfl
      obtain rfl := hsame (j := k) (by rw [he]; simp [Event.own])
      obtain rfl := Option.some.inj (cell.symm.trans cell')
      exact .inl ⟨hd, rfl⟩

-- ================================================================ survivors

/-- Past the lookup, a call is at the start of the body. -/
def Phase.entered : Phase → Phase
  | .lookup => .sanitize
  | phase => phase

/-- The call will abort the process if it goes on. -/
def Call.dies : Call → Prop
  | .reserve phase => phase = .unwind ∨ phase = .terminate
  | .distribute host request phase => ∃ n armed,
      (distributeStep host request)^[n] phase.entered = .terminate armed

theorem Phase.entered_eq (h : phase ≠ .lookup) : phase.entered = phase := by
  cases phase <;> first | exact absurd rfl h | rfl

/-- A body that dies later on dies. -/
theorem dies_body (hl : phase ≠ .lookup)
    (ht : ∀ armed, phase ≠ .terminate armed)
    (hr : ∀ status answer, phase ≠ .returned status answer)
    (h : (Call.distribute host request
      (distributeStep host request phase)).dies) :
    (Call.distribute host request phase).dies := by
  obtain ⟨n, armed, hn⟩ := h
  have hlower := rank_distributeStep host request hl ht hr
  have hne : distributeStep host request phase ≠ .lookup := by
    intro heq
    have hle := (Call.distribute host request phase).rank_le
    rw [heq] at hlower
    exact absurd hlower (Nat.not_lt.mpr hle)
  rw [Phase.entered_eq hne] at hn
  exact ⟨n + 1, armed, by rwa [Phase.entered_eq hl]⟩

theorem not_dies_returned (status : Status)
    (answer : Option CompileAnswer) :
    ¬(Call.distribute host request (.returned status answer)).dies := by
  intro h
  obtain ⟨n, armed, hn⟩ := h
  have hfixed : (distributeStep host request)^[n] (.returned status answer) =
      .returned status answer := Function.iterate_fixed rfl n
  cases hfixed.symm.trans hn

/-- A call that will not die stays such, if the generator does not throw. -/
theorem CallEffect.dies_back (hc : CallEffect cfg s i e c c' t)
    (he : e ≠ .generate i none) (h : c'.dies) : c.dies := by
  cases hc with
  | quiet hq =>
      cases hq with
      | throws => exact absurd rfl he
      | body host request phase hin =>
          exact dies_body (by rintro rfl; cases hin)
            (by rintro _ rfl; cases hin) (by rintro _ _ rfl; cases hin) h
      | full => rcases h with h | h <;> cases h
      | load => rcases h with h | h <;> cases h
      | lost => rcases h with h | h <;> cases h
      | defused => rcases h with h | h <;> cases h
  | release hr =>
      cases hr with
      | unwind => exact .inl rfl
      | leave host request exit => exact dies_body nofun nofun nofun h
  | launch => exact dies_body nofun nofun nofun h
  | refuse => exact absurd h (not_dies_returned _ _)
  | take => exact h
  | pass => rcases h with h | h <;> cases h
  | grant => rcases h with h | h <;> cases h
  | generate => rcases h with h | h <;> cases h
  | insert => rcases h with h | h <;> cases h

theorem Call.dies_of_terminating (h : c.terminating = true) : c.dies := by
  cases c with
  | reserve phase =>
      cases phase with
      | terminate => exact .inr rfl
      | _ => cases h
  | distribute host request phase =>
      cases phase with
      | terminate armed => exact ⟨0, armed, rfl⟩
      | _ => cases h

-- ================================================================== settling

/-- A server that runs on, whose `n` calls all come to an end, with room
for the slots. -/
structure Settling (cfg : Config) (n : Nat) (s : State) : Prop where
  live : s.terminated = false
  running : s.stop = false
  survive : ∀ c ∈ s.calls, ¬c.dies
  room : s.inProgress + cfg.jobsMax.toNat ≤ 2 ^ 64
  calls : s.calls.length = n

/-- Steps that keep uuids distinct and the slots countable. -/
abbrev Uncrowded (cfg : Config) : State → State → Prop :=
  Reaches (step cfg) fun s e => uncrowded cfg s e = true

namespace Settling

variable {n : Nat} {timestamp since : Int} {diff : Nat}

theorem guard (h : Settling cfg n s) (hf : fresh s e = true) :
    uncrowded cfg s e = true := by
  rw [uncrowded, hf, Bool.true_and]
  exact decide_eq_true h.room

/-- Only the calls matter. -/
theorem of_calls (h : Settling cfg n s) (hlive : t.terminated = false)
    (hstop : t.stop = false) (hcalls : t.calls = s.calls) :
    Settling cfg n t where
  live := hlive
  running := hstop
  survive := hcalls ▸ h.survive
  room := by
    have heq : t.inProgress = s.inProgress := by
      rw [State.inProgress, hcalls, State.inProgress]
    rw [heq]
    exact h.room
  calls := hcalls ▸ h.calls

/-- A step of the reaper while the process runs. -/
theorem step_reaper (h : Settling cfg n s) :
    step cfg s .reaper = reaperStep cfg s := by
  rw [step, h.live]
  rfl

/-- Time passes. -/
theorem elapse (h : Settling cfg n s) (ticks : Nat) :
    ∃ t, Uncrowded cfg s t ∧ Settling cfg n t ∧ t.reaper = s.reaper ∧
      t.calls = s.calls ∧ t.reservations = s.reservations ∧
      t.clock = s.clock + ticks := by
  have hstep : step cfg s (.tick ticks) =
      some { s with clock := s.clock + ticks } := by
    rw [step, h.live]
    rfl
  exact ⟨_, .step _ .start (h.guard rfl) hstep,
    h.of_calls h.live h.running rfl, rfl, rfl, rfl, rfl⟩

/-- The reaper subtracts what it has erased and lets go of the lock. -/
theorem release (h : Settling cfg n s)
    (hr : s.reaper = .erased timestamp diff) :
    ∃ t, Uncrowded cfg s t ∧ Settling cfg n t ∧ t.reaper = .loop ∧
      t.calls = s.calls ∧ t.reservations = s.reservations := by
  have hstep : step cfg s .reaper = some { s with
      jobsRunning := s.jobsRunning - UInt64.ofNat diff
      reaper := .loop } := by
    rw [h.step_reaper, reaperStep, hr]
  exact ⟨_, .step _ .start (h.guard rfl) hstep,
    h.of_calls h.live h.running rfl, rfl, rfl, rfl⟩

/-- It erases once it has slept. -/
theorem erase (h : Settling cfg n s)
    (hr : s.reaper = .asleep timestamp since)
    (hslept : since + sleepTime cfg ≤ s.clock) :
    ∃ t, Uncrowded cfg s t ∧ Settling cfg n t ∧ t.reaper = .loop ∧
      t.calls = s.calls ∧
      t.reservations = s.reservations.eraseBelow timestamp := by
  obtain ⟨u, hstep, hu, hreaper, hcalls, hbag⟩ : ∃ u,
      step cfg s .reaper = some u ∧ Settling cfg n u ∧
      u.reaper = .erased timestamp
        (s.reservations.below timestamp).length ∧ u.calls = s.calls ∧
      u.reservations = s.reservations.eraseBelow timestamp := by
    rw [h.step_reaper, reaperStep, hr]
    simp only [if_pos hslept]
    exact ⟨_, rfl, h.of_calls h.live h.running rfl, rfl, rfl, rfl⟩
  obtain ⟨t, hrun, ht, hloop, hcalls', hbag'⟩ := hu.release hreaper
  exact ⟨t, .trans (.step _ .start (h.guard rfl) hstep) hrun, ht, hloop,
    hcalls'.trans hcalls, hbag'.trans hbag⟩

/-- It can always sleep its sleep. -/
theorem wake (h : Settling cfg n s)
    (hr : s.reaper = .asleep timestamp since) :
    ∃ t, Uncrowded cfg s t ∧ Settling cfg n t ∧ t.reaper = .loop ∧
      t.calls = s.calls ∧
      t.reservations = s.reservations.eraseBelow timestamp := by
  obtain ⟨u, hsleep, hu, hreaper, hcalls, hbag, hclock⟩ :=
    h.elapse (since + sleepTime cfg - s.clock).toNat
  obtain ⟨t, hrun, ht, hloop, hcalls', hbag'⟩ :=
    hu.erase (hreaper.trans hr) (by omega)
  exact ⟨t, hsleep.trans hrun, ht, hloop, hcalls'.trans hcalls,
    hbag ▸ hbag'⟩

/-- A pass that has its timestamp comes to an end. -/
theorem pass (h : Settling cfg n s) (hr : s.reaper = .stamped timestamp) :
    ∃ t, Uncrowded cfg s t ∧ Settling cfg n t ∧ t.reaper = .loop ∧
      t.calls = s.calls ∧
      t.reservations = s.reservations.eraseBelow timestamp := by
  have hstep : step cfg s .reaper = some { s with
      reaper := .asleep timestamp s.clock } := by
    rw [h.step_reaper, reaperStep, hr]
  have hu : Settling cfg n { s with reaper := .asleep timestamp s.clock } :=
    h.of_calls h.live h.running rfl
  obtain ⟨t, hrun, ht⟩ := hu.wake rfl
  exact ⟨t, .trans (.step _ .start (h.guard rfl) hstep) hrun, ht⟩

/-- The reaper can always be brought back to its loop. -/
theorem park (h : Settling cfg n s) (hr : s.reaper ≠ .stopped) :
    ∃ t, Uncrowded cfg s t ∧ Settling cfg n t ∧ t.reaper = .loop := by
  cases hreaper : s.reaper with
  | stopped => exact absurd hreaper hr
  | loop => exact ⟨s, .start, h, hreaper⟩
  | stamped timestamp =>
      obtain ⟨t, hrun, ht, hloop, -⟩ := h.pass hreaper
      exact ⟨t, hrun, ht, hloop⟩
  | asleep timestamp since =>
      obtain ⟨t, hrun, ht, hloop, -⟩ := h.wake hreaper
      exact ⟨t, hrun, ht, hloop⟩
  | erased timestamp diff =>
      obtain ⟨t, hrun, ht, hloop, -⟩ := h.release hreaper
      exact ⟨t, hrun, ht, hloop⟩

/-- A pass that starts now erases everything inserted before. -/
theorem sweep (h : Settling cfg n s) (hr : s.reaper = .loop)
    (hmade : ∀ r ∈ s.reservations.entries, r.time ≤ s.clock) :
    ∃ t, Uncrowded cfg s t ∧ Settling cfg n t ∧ t.reaper = .loop ∧
      t.calls = s.calls ∧ t.reservations.entries = [] := by
  obtain ⟨u, htick, hu, hreaper, hcalls, hbag, hclock⟩ := h.elapse 1
  have hstep : step cfg u .reaper = some { u with
      reaper := .stamped u.clock } := by
    rw [hu.step_reaper, reaperStep, hreaper, hr]
    simp only [hu.running, Bool.false_eq_true, if_false]
  have hstamped : Settling cfg n { u with reaper := .stamped u.clock } :=
    hu.of_calls hu.live hu.running rfl
  obtain ⟨t, hrun, ht, hloop, hcalls', hbag'⟩ := hstamped.pass rfl
  refine ⟨t, ?_, ht, hloop, hcalls'.trans hcalls, ?_⟩
  · exact htick.trans (.trans (.step _ .start (hu.guard rfl) hstep) hrun)
  · rw [hbag', List.eq_nil_iff_forall_not_mem]
    intro r hr
    have hle := Bag.le_of_mem_eraseBelow hr
    have hmem := hmade r (hbag ▸ Bag.mem_of_mem_eraseBelow hr)
    omega

/-- A call in progress takes a step, while the reaper waits. -/
theorem advance (h : Settling cfg n s) (hr : s.reaper = .loop)
    (cell : s.calls[i]? = some c) (hpos : c.rank ≠ 0) :
    ∃ e c' u, CallEffect cfg s i e c c' u ∧ e ≠ .generate i none ∧
      Uncrowded cfg s (u.setCall i c') ∧
      Settling cfg n (u.setCall i c') := by
  have hfree : s.lockFree = true := by rw [State.lockFree, hr]
  obtain ⟨e, t, hown, hfresh, hanswers, hstep⟩ :=
    step_enabled cfg h.live hfree cell hpos
  have hsurvives := h.survive c (List.mem_of_getElem? cell)
  obtain ⟨c', u, heff, rfl⟩ :=
    (step_own hown h.live cell hstep).resolve_left fun hdead =>
      hsurvives (Call.dies_of_terminating hdead.1)
  refine ⟨e, c', u, heff, hanswers,
    .step _ .start (h.guard hfresh) hstep,
    ⟨heff.terminated_eq.trans h.live, heff.stop_eq.trans h.running,
      ?_, ?_, ?_⟩⟩
  · intro d hd
    rw [State.setCall, heff.calls_eq] at hd
    rcases List.mem_or_eq_of_mem_set hd with hold | rfl
    · exact h.survive d hold
    · exact fun hdies => hsurvives (heff.dies_back hanswers hdies)
  · have hroom := h.room
    have hcount := inProgress_setCall cell c' heff.calls_eq
    have hin : c.inProgress = true := by
      rw [← Bool.not_eq_false, ← Call.rank_eq_zero]
      exact hpos
    rw [hin, if_pos rfl] at hcount
    have hle : (if c'.inProgress = true then 1 else 0) ≤ 1 := by
      split <;> decide
    omega
  · rw [State.setCall, heff.calls_eq, List.length_set]
    exact h.calls

/-- The steps all calls have before them. -/
def total (s : State) : Nat := (s.calls.map Call.rank).sum

/-- Then all of them together have less before them. -/
theorem advance_total (h : Settling cfg n s) (hr : s.reaper = .loop)
    (hrank : total s ≠ 0) :
    ∃ t, Uncrowded cfg s t ∧ (Settling cfg n t ∧ t.reaper = .loop) ∧
      total t < total s := by
  obtain ⟨c, hc, hpos⟩ : ∃ c ∈ s.calls, c.rank ≠ 0 := by
    by_contra hno
    refine hrank (List.sum_eq_zero fun k hk => ?_)
    obtain ⟨c, hc, rfl⟩ := List.mem_map.mp hk
    by_contra hne
    exact hno ⟨c, hc, hne⟩
  obtain ⟨i, cell⟩ := List.getElem?_of_mem hc
  obtain ⟨e, c', u, heff, -, hrun, ht⟩ := h.advance hr cell hpos
  refine ⟨_, hrun, ⟨ht, heff.reaper_eq.trans hr⟩, ?_⟩
  have hlower := heff.rank_lt
  have hsum := sum_map_set_add Call.rank cell (b := c')
  simp only [total, State.setCall, heff.calls_eq]
  omega

/-- All calls come to an end. -/
theorem finish (h : Settling cfg n s) (hr : s.reaper = .loop) :
    ∃ t, Uncrowded cfg s t ∧ (Settling cfg n t ∧ t.reaper = .loop) ∧
      t.inProgress = 0 := by
  obtain ⟨t, hrun, ht, hzero⟩ := Reaches.descend
    (I := fun s => Settling cfg n s ∧ s.reaper = .loop) total
    (fun s hs hne => hs.1.advance_total hs.2 hne) ⟨h, hr⟩
  refine ⟨t, hrun, ht, List.countP_eq_zero.mpr fun c hc => ?_⟩
  have hrank : c.rank = 0 :=
    List.sum_eq_zero_iff_forall_eq_nat.mp hzero _ (List.mem_map_of_mem hc)
  rw [Call.rank_eq_zero.mp hrank]
  exact Bool.false_ne_true

/-- Call `k` is on its way to a slot, or has one. -/
def Winning (cfg : Config) (s : State) (k : Nat) : Prop :=
  match s.calls[k]? with
  | some (.reserve .check) => s.jobsRunning < cfg.jobsMax
  | some (.reserve (.exchange jobsCur)) => s.jobsRunning = jobsCur
  | some (.reserve (.returned status answer)) =>
      status = Status.ok ∧ ∃ uuid, answer = ⟨true, some uuid⟩
  | some (.reserve .load) | some (.reserve .generate)
  | some (.reserve (.insert _)) | some (.reserve (.defuse _)) => True
  | _ => False

theorem Winning.cell {k : Nat} (h : Winning cfg s k) :
    ∃ phase, s.calls[k]? = some (.reserve phase) := by
  rw [Winning] at h
  split at h <;> first | exact ⟨_, ‹_›⟩ | exact h.elim

/-- Alone, it stays on it. -/
theorem advance_winning {k : Nat} (h : Settling cfg n s)
    (hr : s.reaper = .loop) (hwin : Winning cfg s k)
    (hrank : s.rank k ≠ 0) :
    ∃ t, Uncrowded cfg s t ∧
      (Settling cfg n t ∧ t.reaper = .loop ∧ Winning cfg t k) ∧
      t.rank k < s.rank k := by
  obtain ⟨phase, cell⟩ := hwin.cell
  have hcr : s.rank k = Call.rank (.reserve phase) := by
    simp [State.rank, h.live, cell]
  obtain ⟨e, c', u, heff, hanswers, hrun, ht⟩ :=
    h.advance hr cell (hcr ▸ hrank)
  have cell' : (u.setCall k c').calls[k]? = some c' := by
    obtain ⟨hi, -⟩ := List.getElem?_eq_some_iff.mp cell
    rw [State.setCall, heff.calls_eq]
    exact List.getElem?_set_self hi
  refine ⟨_, hrun, ⟨ht, heff.reaper_eq.trans hr, ?_⟩, ?_⟩
  · rw [Winning, cell] at hwin
    rw [Winning, cell']
    cases heff with
    | quiet hq =>
        cases hq with
        | full hge => exact absurd hwin hge
        | load => rfl
        | lost jobsCur hne => exact absurd hwin hne
        | throws => exact absurd rfl hanswers
        | defused uuid => exact ⟨rfl, uuid, rfl⟩
    | release hrel => cases hrel; exact hwin
    | _ => trivial
  · have hlive : (u.setCall k c').rank k = c'.rank := by
      simp only [State.rank, ht.live, cell', Bool.false_eq_true, if_false,
        Option.map_some, Option.getD_some]
    rw [hcr, hlive]
    exact heff.rank_lt

/-- A server at rest grants. -/
theorem grants (h : Settling cfg n s) (hr : s.reaper = .loop)
    (hidle : s.inProgress = 0) (hfree : s.jobsRunning < cfg.jobsMax) :
    ∃ t uuid, Uncrowded cfg s t ∧ t.calls[n]? =
      some (.reserve (.returned Status.ok ⟨true, some uuid⟩)) := by
  have hstep : step cfg s .reserve = some { s with
      calls := s.calls ++ [.reserve .check] } := by
    rw [step, h.live]
    rfl
  have cell : (s.calls ++ [Call.reserve .check])[n]? =
      some (.reserve .check) := by
    rw [← h.calls]
    exact List.getElem?_concat_length
  have hnext : Settling cfg (n + 1) { s with
      calls := s.calls ++ [.reserve .check] } := by
    refine ⟨h.live, h.running, ?_, ?_, ?_⟩
    · intro c hc
      rcases List.mem_append.mp hc with hold | hnew
      · exact h.survive c hold
      · rw [List.mem_singleton.mp hnew]
        intro hdies
        rcases hdies with heq | heq <;> cases heq
    · have hmax : cfg.jobsMax.toNat < 2 ^ 64 := cfg.jobsMax.toNat_lt
      have hone : State.inProgress { s with
          calls := s.calls ++ [.reserve .check] } = s.inProgress + 1 := by
        simp [State.inProgress, Call.inProgress]
      omega
    · rw [List.length_append, h.calls]
      rfl
  have hwin : Winning cfg { s with
      calls := s.calls ++ [.reserve .check] } n := by
    rw [Winning, cell]
    exact hfree
  obtain ⟨t, hrun, ⟨ht, -, hwon⟩, hzero⟩ := Reaches.descend
    (I := fun s => Settling cfg (n + 1) s ∧ s.reaper = .loop ∧
      Winning cfg s n)
    (fun s => s.rank n)
    (fun s hs hne => hs.1.advance_winning hs.2.1 hs.2.2 hne)
    ⟨hnext, hr, hwin⟩
  have hguard : Uncrowded cfg s t :=
    .trans (.step _ .start (h.guard rfl) hstep) hrun
  obtain ⟨phase, cell'⟩ := hwon.cell
  have hrank : phase.rank = 0 := by
    simpa [State.rank, ht.live, cell', Call.rank] using hzero
  rw [Winning, cell'] at hwon
  cases phase with
  | returned status answer =>
      obtain ⟨rfl, uuid, rfl⟩ := hwon
      exact ⟨t, uuid, hguard, cell'⟩
  | _ => cases hrank

end Settling

-- ============================================================== the results

/-- The process has ended, or nobody holds the lock and call `i` is
there. -/
def Moving (i : Nat) (s : State) : Prop :=
  s.terminated = true ∨ s.lockFree = true ∧ ∃ c, s.calls[i]? = some c

/-- A call that moves has a step of its own. -/
theorem Moving.advance (h : Moving i s) (hrank : s.rank i ≠ 0) :
    ∃ t, Reaches (step cfg) (fun _ e => e.own i = true ∨ e = .reaper) s t ∧
      Moving i t ∧ t.rank i < s.rank i := by
  have hlive : s.terminated = false := by
    rw [← Bool.not_eq_true]
    exact fun hdead => hrank (by rw [State.rank, if_pos hdead])
  obtain ⟨hfree, c, cell⟩ := h.resolve_left (by rw [hlive]; nofun)
  have hpos : c.rank ≠ 0 := by
    simpa [State.rank, hlive, cell] using hrank
  obtain ⟨e, t, hown, -, -, hstep⟩ :=
    step_enabled cfg hlive hfree cell hpos
  refine ⟨t, .step e .start (.inl hown) hstep, ?_,
    (rank_step hstep).1 hown⟩
  rcases step_own hown hlive cell hstep with ⟨-, hdead⟩ |
    ⟨c', u, heff, rfl⟩
  · exact .inl hdead
  · obtain ⟨hi, -⟩ := List.getElem?_eq_some_iff.mp cell
    refine .inr ⟨?_, c', ?_⟩
    · rw [State.lockFree] at hfree ⊢
      exact heff.reaper_eq ▸ hfree
    · rw [State.setCall, heff.calls_eq]
      exact List.getElem?_set_self hi

/-- The reaper lets go of the lock whenever it has it. -/
theorem moving_after_reaper (cfg : Config) (hlive : s.terminated = false)
    (cell : s.calls[i]? = some c) :
    ∃ t, Reaches (step cfg) (fun _ e => e.own i = true ∨ e = .reaper) s t ∧
      Moving i t := by
  cases hr : s.reaper with
  | erased timestamp diff =>
      have hstep : step cfg s .reaper = some { s with
          jobsRunning := s.jobsRunning - UInt64.ofNat diff
          reaper := .loop } := by
        rw [step, hlive]
        simp only [Bool.false_eq_true, if_false, reaperStep, hr, hlive]
      exact ⟨_, .step _ .start (.inr rfl) hstep, .inr ⟨rfl, c, cell⟩⟩
  | _ => exact ⟨s, .start, .inr ⟨by rw [State.lockFree, hr], c, cell⟩⟩

/-- No run has more than eleven steps of one call. And wherever a run is, a
call in progress can be brought to its end by steps of its own and of the
reaper alone: it returns, or it aborts the process. -/
theorem call_finishes {clock : Int} {es : List Event}
    (hrun : runList (step cfg) (State.start clock) es = some s) (i : Nat) :
    es.countP (Event.own i) ≤ 11 ∧
    ∀ c, s.terminated = false → s.calls[i]? = some c →
      ∃ t, Reaches (step cfg) (fun _ e => e.own i = true ∨ e = .reaper)
          s t ∧
        (t.terminated = true ∨
          ∃ c', t.calls[i]? = some c' ∧ c'.inProgress = false) := by
  constructor
  · have hle : es.countP (Event.own i) + s.rank i ≤
        (State.start clock).rank i :=
      runList_rank (fun s => s.rank i) (Event.own i)
        (fun _ _ _ ho hse => (rank_step hse).1 ho)
        (fun _ _ _ ho hse => (rank_step hse).2 ho) hrun
    exact Nat.le_of_add_right_le hle
  · intro c hlive cell
    obtain ⟨u, hsu, hu⟩ := moving_after_reaper cfg hlive cell
    obtain ⟨t, hut, ht, hrank⟩ := Reaches.descend
      (fun s => s.rank i) (fun _ hs hne => hs.advance hne) hu
    refine ⟨t, hsu.trans hut, ?_⟩
    rcases ht with hdead | ⟨-, c', cell'⟩
    · exact .inl hdead
    · by_cases hdead : t.terminated = true
      · exact .inl hdead
      · refine .inr ⟨c', cell', Call.rank_eq_zero.mp ?_⟩
        simpa [State.rank, hdead, cell'] using hrank

/-- A call that is served while another reserves. -/
def busyRun : List Event := servedRun ++ [.reserve]

theorem call_finishes_served :
    ∃ s, runList (step ⟨2, 60⟩) (State.start 0)
        busyRun = some s ∧
      busyRun.countP (Event.own 1) ≤ 11 ∧
      ∃ t, Reaches (step ⟨2, 60⟩)
          (fun _ e => e.own 1 = true ∨ e = .reaper) s t ∧
        (t.terminated = true ∨
          ∃ c', t.calls[1]? = some c' ∧ c'.inProgress = false) := by
  have hrun : runList (step ⟨2, 60⟩) (State.start 0) busyRun
      = some _ := rfl
  have h := call_finishes hrun 1
  exact ⟨_, hrun, h.1, h.2 _ rfl rfl⟩

-- ================================================================ the slots

/-- The reaper stops only after it was asked to. -/
theorem stop_of_stopped {Q : State → Event → Prop} {clock : Int}
    (h : Reaches (step cfg) Q (State.start clock) s) :
    s.reaper = .stopped → s.stop = true := by
  refine h.invariant (P := fun s => s.reaper = .stopped → s.stop = true)
    nofun ?_
  intro s e t hs _ hse hr
  have hkeep : e ≠ .reaper →
      t.reaper = s.reaper ∧ (s.stop = true → t.stop = true) := by
    intro hne
    cases step_effect hse with
    | tick => exact ⟨rfl, id⟩
    | requestStop => exact ⟨rfl, fun _ => rfl⟩
    | die => exact ⟨rfl, id⟩
    | arrive => exact ⟨rfl, id⟩
    | call cell hc => exact ⟨hc.reaper_eq, fun h => hc.stop_eq.trans h⟩
    | reaper => exact absurd rfl hne
  by_cases he : e = .reaper
  · subst he
    simp only [step] at hse
    split at hse
    case isTrue => cases hse
    case isFalse => grind [reaperStep]
  · obtain ⟨hreaper, hstop⟩ := hkeep he
    exact hstop (hs (hreaper.symm.trans hr))

/-- No slot is lost for good. From every state of a run with distinct uuids
and room for the slots, unless the process has ended, was asked to stop or
has a call in progress that will abort it, the server can come to rest
without another call: every call has returned, no reservation is left and
the counter is zero. Then it grants again. -/
theorem slots_come_back {clock : Int}
    (h : Uncrowded cfg (State.start clock) s) (hlive : s.terminated = false)
    (hstop : s.stop = false) (hsurvive : ∀ c ∈ s.calls, ¬c.dies)
    (hroom : s.inProgress + cfg.jobsMax.toNat ≤ 2 ^ 64) :
    ∃ t, Uncrowded cfg s t ∧ t.calls.length = s.calls.length ∧
      t.inProgress = 0 ∧ t.reservations.size = 0 ∧ t.jobsRunning = 0 ∧
      (0 < cfg.jobsMax → ∃ u uuid, Uncrowded cfg t u ∧
        u.calls[t.calls.length]? =
          some (.reserve (.returned Status.ok ⟨true, some uuid⟩))) := by
  have hsettling : Settling cfg s.calls.length s :=
    ⟨hlive, hstop, hsurvive, hroom, rfl⟩
  have hreaper : s.reaper ≠ .stopped := by
    intro heq
    rw [stop_of_stopped h heq] at hstop
    cases hstop
  -- the reaper out of the way, then the calls, then a whole pass
  obtain ⟨u, hsu, hu, hparked⟩ := hsettling.park hreaper
  obtain ⟨v, huv, ⟨hv, hwaiting⟩, hdone⟩ := hu.finish hparked
  have hmade : ∀ r ∈ v.reservations.entries, r.time ≤ v.clock := by
    have hreach := (h.trans hsu).trans huv
    intro r hr
    have htickets := Tickets.of_reaches
      (fun _ _ hq => (Bool.and_eq_true_iff.mp hq).1) hreach
    exact (Aged.of_reaches hreach).made r (htickets.of_mem hr).1
  obtain ⟨t, hvt, ht, hloop, hcalls, hempty⟩ := hv.sweep hwaiting hmade
  have hst : Uncrowded cfg s t := (hsu.trans huv).trans hvt
  have hidle : t.inProgress = 0 := by
    rw [State.inProgress, hcalls]
    exact hdone
  have hbag : t.reservations.size = 0 := by
    rw [Bag.size, hempty]
    rfl
  have hzero : t.jobsRunning = 0 := by
    have hexact := (Exact.of_reaches (h.trans hst)).exact
    have hr := reserving_le_inProgress t
    have hs := serving_le_inProgress t
    have hpending : t.reaper.pending = 0 := by rw [hloop]; rfl
    apply UInt64.toNat_inj.mp
    rw [hexact, State.slots]
    show _ = 0
    omega
  refine ⟨t, hst, ht.calls, hidle, hbag, hzero, fun hpos => ?_⟩
  obtain ⟨u, uuid, hrun, hgranted⟩ := ht.grants hloop hidle (hzero ▸ hpos)
  rw [ht.calls]
  exact ⟨u, uuid, hrun, hgranted⟩

/-- One slot, and the client that holds it never sends its job. -/
theorem slots_come_back_leaked :
    ∃ s t u uuid, runList (step ⟨1, 60⟩) (State.start 0)
        (.reserve :: reserveRun 0 "a".toList) = some s ∧
      s.jobsRunning = 1 ∧ Uncrowded ⟨1, 60⟩ s t ∧ t.jobsRunning = 0 ∧
      Uncrowded ⟨1, 60⟩ t u ∧ u.calls[t.calls.length]? =
        some (.reserve (.returned Status.ok ⟨true, some uuid⟩)) := by
  have hrun : runList (step ⟨1, 60⟩) (State.start 0)
      (.reserve :: reserveRun 0 "a".toList) = some _ := rfl
  have hreach := Reaches.of_runList (Q := fun s e =>
    uncrowded ⟨1, 60⟩ s e = true) (fun _ _ h => h) _ hrun (by decide)
  obtain ⟨t, hst, -, -, -, hzero, hagain⟩ := slots_come_back hreach rfl rfl
    (by
      intro c hc hdies
      rw [List.mem_singleton.mp hc] at hdies
      rcases hdies with heq | heq <;> cases heq)
    (by decide)
  obtain ⟨u, uuid, htu, hgranted⟩ := hagain (by decide)
  exact ⟨_, t, u, uuid, hrun, rfl, hst, hzero, htu, hgranted⟩

end Distplusplus.Server
