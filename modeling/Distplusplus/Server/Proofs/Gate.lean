/-
The gate in front of the compiler.

A `Distribute` call starts a compiler from one phase only, and reaches it
only through the lookup and every check. What the checks established is
`PhaseInv`; that the lookup consumed a ticket is `Redeemed`, which is about
the log and stays true as the log grows. `Gate` says both of every cell,
bounds the starts by what a call is still allowed (`allowance`), and keeps
for every start on record what its call knew.
-/
import Distplusplus.Server.Proofs.Booking
import Distplusplus.Server.Proofs.Tickets

namespace Distplusplus.Server

open Lib Common

variable {cfg : Config} {s t : State} {e : Event} {i : Nat} {c c' : Call}
variable {calls : List Call} {log : List Note} {note : Note}

-- ================================================================== phases

/-- Between the lookup and the start of the compiler. -/
def Phase.checking : Phase → Bool
  | .sanitize | .allowlist | .decompress | .makeInput _ | .makeOutput _ _
  | .parse _ _ _ | .launch _ _ _ _ => true
  | _ => false

/-- Before the start of the compiler. -/
def Phase.unlaunched : Phase → Bool
  | .lookup => true
  | phase => phase.checking

theorem Phase.unlaunched_of_checking {phase : Phase}
    (h : phase.checking = true) : phase.unlaunched = true := by
  cases phase <;> first | rfl | cases h

theorem unlaunched_destroyAll (nameMax : Nat)
    (files : List (Tempfile × List Str)) (exit : Exit) :
    (destroyAll nameMax files exit).unlaunched = false := by
  rcases destroyAll_cases nameMax files exit with h | h <;> rw [h] <;> rfl

/-- No phase leads back in front of the compiler's start. -/
theorem checking_of_unlaunched (host : Host) (request : CompileRequest)
    {phase : Phase} (hin : phase.inner = true)
    (h : (distributeStep host request phase).unlaunched = true) :
    phase.checking = true := by
  cases phase with
  | answer input output process =>
      simp only [distributeStep] at h
      split at h <;> rw [unlaunched_destroyAll] at h <;> cases h
  | lookup => cases hin
  | launch => cases hin
  | leave => cases hin
  | returned => cases hin
  | terminate => cases hin
  | _ => rfl

theorem unlaunched_launch (host : Host) (request : CompileRequest)
    (data : Str) (input output : Tempfile) (args : List Arg) :
    (distributeStep host request
      (.launch data input output args)).unlaunched = false := by
  simp only [distributeStep]
  split
  · exact unlaunched_destroyAll ..
  · rfl

-- ================================================================== the log

/-- Call `i` presented the uuid and removed its one reservation, which an
earlier `Reserve` had inserted and nobody had removed. -/
def Redeemed (i : Nat) (uuid : Str) (log : List Note) : Prop :=
  ∃ after before time r,
    log = after ++ .presented i uuid time [r] :: before ∧ r.uuid = uuid ∧
    r ∈ inserted before ∧ uuid ∉ (removed before).map Reservation.uuid

theorem Redeemed.cons {uuid : Str} (h : Redeemed i uuid log)
    (note : Note) : Redeemed i uuid (note :: log) := by
  obtain ⟨after, before, time, r, rfl, hr⟩ := h
  exact ⟨note :: after, before, time, r, rfl, hr⟩

/-- How many compilers a call may have started by now. -/
def allowance : Option Call → Nat
  | some (.distribute _ _ phase) => if phase.unlaunched then 0 else 1
  | _ => 0

/-- What the checks and the lookup behind a cell have established. -/
def Gated (i : Nat) (log : List Note) : Call → Prop
  | .reserve _ => True
  | .distribute host request phase =>
      PhaseInv host request phase ∧
        (phase.checking = true → Redeemed i request.uuid log)

theorem Gated.cons (h : Gated i log c) (note : Note) :
    Gated i (note :: log) c := by
  cases c with
  | reserve => trivial
  | distribute host request phase =>
      exact ⟨h.1, fun hc => (h.2 hc).cons note⟩

/-- A call keeps its environment and its request. -/
def SameJob (c c' : Call) : Prop :=
  ∀ host request phase, c = .distribute host request phase →
    ∃ phase', c' = .distribute host request phase'

/-- The gate, over all calls and the whole log. -/
structure Gate (calls : List Call) (log : List Note) : Prop where
  cells : ∀ i c, calls[i]? = some c → Gated i log c
  allowed : ∀ i, log.countP (Note.starts i) ≤ allowance calls[i]?
  accepted : ∀ i request, .started i request ∈ log → ∃ host phase,
    calls[i]? = some (.distribute host request phase) ∧
      Accepted host request
  redeemed : Logged (fun note before => ∀ i request,
    note = .started i request → Redeemed i request.uuid before) log

namespace Gate

theorem start : Gate [] [] where
  cells := fun _ _ h => by cases h
  allowed := fun _ => Nat.le_refl _
  accepted := fun _ _ h => by cases h
  redeemed := trivial

/-- A note that starts nothing. -/
theorem cons (h : Gate calls log) (note : Note) (hno : ∀ i request,
    note ≠ .started i request) : Gate calls (note :: log) where
  cells := fun i c hc => (h.cells i c hc).cons note
  allowed := fun i => by
    have hcount : (note :: log).countP (Note.starts i)
        = log.countP (Note.starts i) := by
      apply List.countP_cons_of_neg
      cases note with
      | started j request => exact absurd rfl (hno j request)
      | _ => exact Bool.false_ne_true
    rw [hcount]
    exact h.allowed i
  accepted := fun i request hmem => by
    rcases List.mem_cons.mp hmem with heq | hmem
    · exact absurd heq.symm (hno i request)
    · exact h.accepted i request hmem
  redeemed := ⟨fun i request heq => absurd heq (hno i request), h.redeemed⟩

/-- A cell moves on and nothing is started. -/
theorem setCall (h : Gate calls log) (cell : calls[i]? = some c)
    (hgated : Gated i log c')
    (hallow : allowance (some c) ≤ allowance (some c'))
    (hjob : SameJob c c') : Gate (calls.set i c') log where
  cells := fun j d hd => by
    rcases getElem?_set_cases cell hd with ⟨rfl, rfl⟩ | ⟨-, hold⟩
    · exact hgated
    · exact h.cells j d hold
  allowed := fun j => by
    apply (h.allowed j).trans
    by_cases hji : i = j
    · subst hji
      obtain ⟨hi, -⟩ := List.getElem?_eq_some_iff.mp cell
      rw [List.getElem?_set_self hi, cell]
      exact hallow
    · rw [List.getElem?_set_ne hji]
  accepted := fun j request hmem => by
    obtain ⟨host, phase, hcell, hacc⟩ := h.accepted j request hmem
    by_cases hji : i = j
    · subst hji
      obtain ⟨phase', rfl⟩ := hjob host request phase
        (Option.some.inj (cell.symm.trans hcell))
      obtain ⟨hi, -⟩ := List.getElem?_eq_some_iff.mp cell
      exact ⟨host, phase', List.getElem?_set_self hi, hacc⟩
    · exact ⟨host, phase, by rw [List.getElem?_set_ne hji, hcell], hacc⟩
  redeemed := h.redeemed

/-- A new call. -/
theorem arrive (h : Gate calls log) (ha : Arrives e c) :
    Gate (calls ++ [c]) log where
  cells := fun i d hd => by
    rcases getElem?_append_one_cases hd with ⟨-, rfl⟩ | hold
    · cases ha with
      | reserve => trivial
      | distribute host request =>
          exact ⟨trivial, fun hc => absurd hc Bool.false_ne_true⟩
    · exact h.cells i d hold
  allowed := fun i => by
    apply (h.allowed i).trans
    rcases Nat.lt_or_ge i calls.length with hlt | hge
    · rw [List.getElem?_append_left hlt]
    · rw [List.getElem?_eq_none hge]
      exact Nat.zero_le _
  accepted := fun i request hmem => by
    obtain ⟨host, phase, hcell, hacc⟩ := h.accepted i request hmem
    obtain ⟨hi, -⟩ := List.getElem?_eq_some_iff.mp hcell
    exact ⟨host, phase, by rw [List.getElem?_append_left hi, hcell], hacc⟩
  redeemed := h.redeemed

/-- A call that has passed every check starts its compiler. -/
theorem launch (h : Gate calls log) {host : Host}
    {request : CompileRequest} {data : Str} {input output : Tempfile}
    {args : List Arg}
    (cell : calls[i]? = some (.distribute host request
      (.launch data input output args))) :
    Gate (calls.set i (.distribute host request (distributeStep host request
      (.launch data input output args)))) (.started i request :: log) := by
  obtain ⟨hinv, hredeemed⟩ := h.cells i _ cell
  obtain ⟨hi, -⟩ := List.getElem?_eq_some_iff.mp cell
  have hafter := unlaunched_launch host request data input output args
  have hmoved : Gate (calls.set i (.distribute host request
      (distributeStep host request (.launch data input output args)))) log := by
    refine h.setCall cell ⟨hinv.step, fun hc => ?_⟩ (Nat.zero_le _) ?_
    · rw [Phase.unlaunched_of_checking hc] at hafter
      cases hafter
    · intro host' request' phase' heq
      cases heq
      exact ⟨_, rfl⟩
  refine ⟨fun j d hd => (hmoved.cells j d hd).cons _, fun j => ?_, ?_, ?_⟩
  · rw [List.countP_cons]
    by_cases hji : i = j
    · -- nothing was started for this call before
      subst hji
      have hnone := h.allowed i
      rw [cell] at hnone
      simp only [allowance, Phase.unlaunched, Phase.checking] at hnone
      rw [List.getElem?_set_self hi]
      simp only [allowance, hafter, Note.starts, beq_self_eq_true]
      exact Nat.succ_le_succ hnone
    · have hno : Note.starts j (.started i request) = false := by
        simpa [Note.starts] using hji
      rw [hno]
      exact hmoved.allowed j
  · intro j request' hmem
    rcases List.mem_cons.mp hmem with heq | hmem
    · cases heq
      exact ⟨host, _, List.getElem?_set_self hi, hinv.accepted⟩
    · exact hmoved.accepted j request' hmem
  · refine ⟨fun j request' heq => ?_, h.redeemed⟩
    cases heq
    exact hredeemed rfl

-- ================================================================ preserved

/-- A step of the body keeps the facts of its cell. -/
theorem body (h : Gate calls log) {host : Host} {request : CompileRequest}
    {phase : Phase} (hin : phase.inner = true)
    (cell : calls[i]? = some (.distribute host request phase)) :
    Gate (calls.set i (.distribute host request
      (distributeStep host request phase))) log := by
  obtain ⟨hinv, hredeemed⟩ := h.cells i _ cell
  have hback := checking_of_unlaunched host request hin
  refine h.setCall cell ⟨hinv.step, fun hc => ?_⟩ ?_ ?_
  · exact hredeemed (hback (Phase.unlaunched_of_checking hc))
  · simp only [allowance]
    split
    case isTrue => exact Nat.zero_le _
    case isFalse hno =>
      rw [if_neg fun hu => hno (Phase.unlaunched_of_checking (hback hu))]
  · intro host' request' phase' heq
    cases heq
    exact ⟨_, rfl⟩

/-- A call whose new cell asks nothing of the log. -/
theorem settle (h : Gate calls log) {host : Host} {request : CompileRequest}
    {phase : Phase} (phase' : Phase)
    (cell : calls[i]? = some (.distribute host request phase))
    (hinv : PhaseInv host request phase')
    (hafter : phase'.unlaunched = false) :
    Gate (calls.set i (.distribute host request phase')) log := by
  refine h.setCall cell ⟨hinv, fun hc => ?_⟩ ?_ ?_
  · rw [Phase.unlaunched_of_checking hc] at hafter
    cases hafter
  · simp only [allowance, hafter]
    split
    · exact Nat.zero_le _
    · exact Nat.le_refl 1
  · intro host' request' phase'' heq
    cases heq
    exact ⟨_, rfl⟩

/-- A `Reserve` call moves on. -/
theorem reserve (h : Gate calls log) {phase phase' : ReservePhase}
    (cell : calls[i]? = some (.reserve phase)) :
    Gate (calls.set i (.reserve phase')) log :=
  h.setCall cell trivial (Nat.le_refl _) fun _ _ _ heq => by cases heq

/-- A step of a call. -/
theorem callEffect (h : Gate s.calls s.log)
    (htickets : Tickets s.calls s.reservations s.log)
    (cell : s.calls[i]? = some c) (hc : CallEffect cfg s i e c c' t) :
    Gate (t.setCall i c').calls t.log := by
  cases hc with
  | quiet hq =>
      cases hq with
      | body host request phase hin => exact h.body hin cell
      | full => exact h.reserve cell
      | load => exact h.reserve cell
      | lost => exact h.reserve cell
      | throws => exact h.reserve cell
      | defused => exact h.reserve cell
  | pass => exact h.reserve cell
  | grant => exact h.reserve cell
  | generate uuid =>
      exact (h.reserve cell).cons _ fun _ _ heq => by cases heq
  | insert uuid free =>
      exact (h.reserve cell).cons _ fun _ _ heq => by cases heq
  | release hr =>
      cases hr with
      | unwind => exact h.reserve cell
      | leave host request exit =>
          cases exit with
          | ret status answer =>
              exact h.settle (.returned status answer) cell
                trivial rfl
          | throwStatus status =>
              exact h.settle (.returned status none) cell
                trivial rfl
          | throw exception =>
              exact h.settle (.terminate false) cell trivial rfl
  | refuse host request free hnone =>
      exact (h.settle (refused request) cell trivial rfl).cons _
        fun _ _ heq => by cases heq
  | take host request free hsome =>
      have hlogged := h.cons (.presented i request.uuid s.clock
        (s.reservations.matching (·.uuid = request.uuid)))
        fun _ _ heq => by cases heq
      refine hlogged.setCall cell ⟨trivial, fun _ => ?_⟩ (Nat.zero_le _) ?_
      · obtain ⟨r, hone, hu, hmem⟩ := htickets.matching_eq hsome
        obtain ⟨hins, hrem⟩ := htickets.of_mem hmem
        exact ⟨[], s.log, s.clock, r, by rw [hone]; rfl, hu, hins,
          hu ▸ hrem⟩
      · intro host' request' phase' heq
        cases heq
        exact ⟨_, rfl⟩
  | launch host request data input output args => exact h.launch cell

/-- A step of the machine. -/
theorem effect (h : Gate s.calls s.log)
    (htickets : Tickets s.calls s.reservations s.log)
    (he : Effect cfg s e t) : Gate t.calls t.log := by
  cases he with
  | tick => exact h
  | requestStop => exact h
  | die => exact h
  | arrive ha => exact h.arrive ha
  | call cell hc => exact h.callEffect htickets cell hc
  | reaper hr =>
      cases hr with
      | stop => exact h
      | stamp => exact h
      | sleep => exact h
      | subtract => exact h
      | reap => exact h.cons _ fun _ _ heq => by cases heq

end Gate

/-- Every state of a run with pairwise distinct uuids. -/
theorem Gate.of_reaches {clock : Int}
    (h : Reaches (step cfg) (fun s e => fresh s e = true)
      (State.start clock) s) : Gate s.calls s.log := by
  refine h.invariant_with
    (I := fun s => Tickets s.calls s.reservations s.log)
    (P := fun s => Gate s.calls s.log)
    (fun s hs => Tickets.of_reaches (fun _ _ hq => hq) hs) Gate.start ?_
  intro s e t htickets hs _ hse
  exact hs.effect htickets (step_effect hse)

-- ============================================================= the refusal

/-- A uuid that is not in the set is refused; the set and the counter are
left alone. -/
theorem step_refused {host : Host} {request : CompileRequest}
    (cell : s.calls[i]? = some (.distribute host request .lookup))
    (hnone : ∀ r ∈ s.reservations.entries, r.uuid ≠ request.uuid)
    (hse : step cfg s (.advance i) = some t) :
    t.calls[i]? = some (.distribute host request (refused request)) ∧
      t.reservations = s.reservations ∧ t.jobsRunning = s.jobsRunning := by
  have hmatching : s.reservations.matching (·.uuid = request.uuid) = [] := by
    rw [Bag.matching, List.filter_eq_nil_iff]
    intro r hr
    simpa using hnone r hr
  simp only [step] at hse
  split at hse
  case isTrue => cases hse
  case isFalse =>
    simp only [advanceStep, cell, distributeCallStep, hmatching,
      if_true] at hse
    split at hse
    case isFalse => cases hse
    case isTrue =>
      obtain rfl := Option.some.inj hse
      obtain ⟨hi, -⟩ := List.getElem?_eq_some_iff.mp cell
      exact ⟨List.getElem?_set_self hi, rfl, rfl⟩

-- ============================================================== the results

/-- Reservations are single-use tickets and gate compilation. In every
state of a run with pairwise distinct uuids:

- the reservations inserted so far are distinct by uuid, each is in the set
  or was removed, and over all lookups and passes none was removed twice;
- a compiler was started only by a call that had redeemed its uuid before
  and whose request passed every check;
- no call has started two;
- the next step of a lookup whose uuid is not in the set is the refusal,
  and changes neither the set nor the counter. -/
theorem single_use {clock : Int}
    (h : Reaches (step cfg) (fun s e => fresh s e = true)
      (State.start clock) s) :
    (((inserted s.log).map Reservation.uuid).Nodup ∧
      (s.reservations.entries ++ removed s.log).Perm (inserted s.log) ∧
      ((removed s.log).map Reservation.uuid).Nodup) ∧
    (∀ after before i request,
      s.log = after ++ .started i request :: before →
        Redeemed i request.uuid before ∧ ∃ host phase,
          s.calls[i]? = some (.distribute host request phase) ∧
            Accepted host request) ∧
    (∀ i, s.log.countP (Note.starts i) ≤ 1) ∧
    (∀ i host request t,
      s.calls[i]? = some (.distribute host request .lookup) →
      (∀ r ∈ s.reservations.entries, r.uuid ≠ request.uuid) →
      step cfg s (.advance i) = some t →
        t.calls[i]? = some (.distribute host request (refused request)) ∧
        t.reservations = s.reservations ∧ t.jobsRunning = s.jobsRunning) := by
  have htickets : Tickets s.calls s.reservations s.log :=
    Tickets.of_reaches (fun _ _ hq => hq) h
  have hgate : Gate s.calls s.log := .of_reaches h
  refine ⟨⟨htickets.once, htickets.split, htickets.removed_once⟩, ?_, ?_,
    fun _ _ _ _ cell hnone hse => step_refused cell hnone hse⟩
  · intro after before i request hlog
    have hstarts := hgate.redeemed
    rw [hlog] at hstarts
    refine ⟨hstarts.at i request rfl, hgate.accepted i request ?_⟩
    rw [hlog]
    exact List.mem_append_right _ List.mem_cons_self
  · intro i
    apply (hgate.allowed i).trans
    simp only [allowance]
    split
    · split <;> omega
    · exact Nat.zero_le _

/-- A reservation that is redeemed and compiled, presented twice. -/
def compiledRun : List Event :=
  .reserve :: reserveRun 0 "a".toList ++
    [.distribute plainHost (plainRequest "a".toList),
      .distribute plainHost (plainRequest "a".toList),
      .advance 1, .advance 2] ++ List.replicate 9 (.advance 1)

theorem single_use_compiled :
    ∃ s, runList (step ⟨1, 60⟩) (State.start 0) compiledRun = some s ∧
      s.log.countP (Note.starts 1) = 1 ∧
      ((removed s.log).map Reservation.uuid).Nodup := by
  have hrun : runList (step ⟨1, 60⟩) (State.start 0) compiledRun
      = some _ := rfl
  have h := single_use (Reaches.of_runList (fun _ _ h => h) compiledRun
    hrun (by decide))
  exact ⟨_, hrun, rfl, h.1.2.2⟩

end Distplusplus.Server
