/-
How long a reservation lives.

The reaper takes its cut-off before it sleeps and erases what is older than
the cut-off after it slept. So what a pass removes is older than one sleep
(`Timely`, of a `reaped` note), and what it leaves was made at its start or
later. The other direction is that nothing else is lost: a reservation that
was inserted is in the set until a note says who removed it (`Aged.kept`).

All of this is about the clock alone. Uuids may repeat.
-/
import Distplusplus.Server.Proofs.Booking

namespace Distplusplus.Server

open Lib Common

variable {cfg : Config} {s t : State} {e : Event} {i : Nat} {c c' : Call}
variable {log : List Note} {note : Note}

-- ================================================================= refusals

/-- A status the body can produce after the lookup. -/
def pastLookup (status : Status) : Prop :=
  status.code ≠ .FAILED_PRECONDITION

/-- What a cell's status says about the lookup. -/
def Answered (i : Nat) (log : List Note) : Call → Prop
  | .distribute _ request phase =>
      match phase with
      | .leave (.ret status _) => pastLookup status
      | .leave (.throwStatus status) => pastLookup status
      | .returned status _ => pastLookup status ∨
          ∃ time, .presented i request.uuid time [] ∈ log
      | _ => True
  | _ => True

theorem Answered.cons (h : Answered i log c) (note : Note) :
    Answered i (note :: log) c := by
  cases c with
  | reserve => trivial
  | distribute host request phase =>
      cases phase with
      | returned status answer =>
          apply h.imp_right
          intro hex
          obtain ⟨time, hmem⟩ := hex
          exact ⟨time, List.mem_cons_of_mem _ hmem⟩
      | leave exit => cases exit <;> exact h
      | _ => trivial

theorem Answered.destroyAll {host : Host} {request : CompileRequest}
    (nameMax : Nat) (files : List (Tempfile × List Str)) {exit : Exit}
    (h : Answered i log (.distribute host request (.leave exit))) :
    Answered i log (.distribute host request
      (destroyAll nameMax files exit)) := by
  rcases destroyAll_cases nameMax files exit with heq | heq <;> rw [heq]
  · exact h
  · trivial

/-- Past the lookup no step of the body refuses the uuid. -/
theorem Answered.body {host : Host} {request : CompileRequest}
    {phase : Phase} (hne : phase ≠ .lookup)
    (h : Answered i log (.distribute host request phase)) :
    Answered i log (.distribute host request
      (distributeStep host request phase)) := by
  cases phase with
  | lookup => exact absurd rfl hne
  | sanitize =>
      simp only [distributeStep]
      split
      · exact StatusCode.noConfusion
      · trivial
  | allowlist =>
      simp only [distributeStep]
      split
      · trivial
      · exact StatusCode.noConfusion
      · trivial
  | decompress =>
      simp only [distributeStep]
      split
      · trivial
      · exact StatusCode.noConfusion
      · trivial
  | makeInput data => simp only [distributeStep]; split <;> trivial
  | makeOutput data input =>
      simp only [distributeStep]
      split
      · exact Answered.destroyAll _ _ trivial
      · trivial
  | parse data input output =>
      simp only [distributeStep]
      split
      · exact Answered.destroyAll _ _ StatusCode.noConfusion
      · trivial
  | launch data input output args =>
      simp only [distributeStep]
      split
      · exact Answered.destroyAll _ _ trivial
      · trivial
  | answer input output process =>
      simp only [distributeStep]
      split
      · exact Answered.destroyAll _ _ trivial
      · exact Answered.destroyAll _ _ StatusCode.noConfusion
  | leave exit =>
      cases exit with
      | ret status answer => exact .inl h
      | throwStatus status => exact .inl h
      | throw exception => trivial
  | returned status answer => exact h
  | terminate armed => trivial

/-- A call's own step. -/
theorem Answered.callEffect (h : Answered i s.log c)
    (hc : CallEffect cfg s i e c c' t) : Answered i t.log c' := by
  cases hc with
  | quiet hq =>
      cases hq with
      | body host request phase hin =>
          exact h.body (by rintro rfl; cases hin)
      | _ => trivial
  | release hr =>
      cases hr with
      | unwind => trivial
      | leave host request exit => exact h.body Phase.noConfusion
  | refuse host request free hnone =>
      exact .inr ⟨s.clock, List.mem_cons_self⟩
  | take => trivial
  | launch host request data input output args =>
      exact (h.body Phase.noConfusion).cons _
  | pass => trivial
  | grant => trivial
  | generate => trivial
  | insert => trivial

-- ===================================================================== ages

variable {reaper : ReaperPhase} {clock : Int} {bag bag' : Bag Reservation.time}

/-- `mid` is what the log recorded after inserting `r`. -/
def Since (log : List Note) (r : Reservation) (mid : List Note) : Prop :=
  ∃ before, log = mid ++ .inserted r :: before

theorem since_cons {r : Reservation} {mid : List Note}
    (h : Since (note :: log) r mid) :
    (mid = [] ∧ note = .inserted r) ∨
      ∃ mid', mid = note :: mid' ∧ Since log r mid' := by
  obtain ⟨before, heq⟩ := h
  cases mid with
  | nil =>
      rw [List.nil_append, List.cons.injEq] at heq
      exact .inl ⟨rfl, heq.1⟩
  | cons n mid =>
      rw [List.cons_append, List.cons.injEq] at heq
      obtain ⟨rfl, rfl⟩ := heq
      exact .inr ⟨mid, rfl, before, rfl⟩

theorem Since.mem_inserted {r : Reservation} {mid : List Note}
    (h : Since log r mid) : r ∈ inserted log := by
  obtain ⟨before, rfl⟩ := h
  exact List.mem_filterMap.mpr
    ⟨.inserted r, List.mem_append_right _ List.mem_cons_self, rfl⟩

/-- A cut-off taken after a pass was over: what was inserted before that
pass is not younger. -/
def CutsOff (log : List Note) (timestamp : Int) : Prop :=
  ∀ r mid, Since log r mid → (∃ n ∈ mid, n.isReaped = true) →
    r.time ≤ timestamp

/-- What the clock says about a note when it is written. -/
def Timely (cfg : Config) : Note → List Note → Prop
  | .reaped timestamp now removed, before =>
      (∀ r ∈ removed, r.time < timestamp) ∧
      timestamp + sleepTime cfg ≤ now ∧ CutsOff before timestamp
  | .presented _ uuid now removed, before =>
      (∀ r ∈ removed, r.uuid = uuid) ∧
      (∀ timestamp time gone,
        .reaped timestamp time gone ∈ before → time ≤ now) ∧
      (removed = [] → ∀ r mid, Since before r mid → r.uuid = uuid →
        ∃ n ∈ mid, r ∈ n.removes)
  | _, _ => True

/-- The cut-off of the pass that is running, before its erasure. -/
def ReaperPhase.cutoff : ReaperPhase → Option Int
  | .stamped timestamp | .asleep timestamp _ => some timestamp
  | _ => none

/-- What the reaper, the clock, the set and the log know of each other. -/
structure Aged (cfg : Config) (reaper : ReaperPhase) (clock : Int)
    (bag : Bag Reservation.time) (log : List Note) : Prop where
  made : ∀ r ∈ inserted log, r.time ≤ clock
  kept : ∀ r mid, Since log r mid →
    r ∈ bag.entries ∨ ∃ n ∈ mid, r ∈ n.removes
  passes : ∀ timestamp now gone, .reaped timestamp now gone ∈ log →
    timestamp ≤ clock ∧ now ≤ clock ∧ ∀ r ∈ bag.entries, timestamp ≤ r.time
  cutoff : ∀ timestamp, reaper.cutoff = some timestamp →
    timestamp ≤ clock ∧ CutsOff log timestamp
  slept : ∀ timestamp since, reaper = .asleep timestamp since →
    timestamp ≤ since
  erased : ∀ timestamp diff, reaper = .erased timestamp diff →
    ∃ after now gone before,
      log = after ++ .reaped timestamp now gone :: before ∧
      gone.length = diff ∧ ∀ n ∈ after, n.isReaped = false
  timely : Logged (Timely cfg) log

namespace Aged

theorem start (clock : Int) : Aged cfg .loop clock Bag.empty [] where
  made := fun _ h => by cases h
  kept := fun r mid h => by obtain ⟨before, heq⟩ := h; simp at heq
  passes := fun _ _ _ h => by cases h
  cutoff := fun _ h => by cases h
  slept := fun _ _ h => by cases h
  erased := fun _ _ h => by cases h
  timely := trivial

/-- Time passes. -/
theorem tick (h : Aged cfg reaper clock bag log) (ticks : Nat) :
    Aged cfg reaper (clock + ticks) bag log where
  made := fun r hr => (h.made r hr).trans (by omega)
  kept := h.kept
  passes := fun timestamp now gone hmem => by
    obtain ⟨ht, hn, hkeep⟩ := h.passes timestamp now gone hmem
    exact ⟨by omega, by omega, hkeep⟩
  cutoff := fun timestamp heq => by
    obtain ⟨ht, hcut⟩ := h.cutoff timestamp heq
    exact ⟨by omega, hcut⟩
  slept := h.slept
  erased := h.erased
  timely := h.timely

/-- A cut-off stays one as notes other than passes are written. -/
theorem cutsOff_cons {timestamp : Int} (h : CutsOff log timestamp)
    (hno : note.isReaped = false) : CutsOff (note :: log) timestamp := by
  intro r mid hsince hex
  obtain ⟨n, hn, hreaped⟩ := hex
  rcases since_cons hsince with ⟨rfl, -⟩ | ⟨mid', rfl, hsince'⟩
  · cases hn
  · rcases List.mem_cons.mp hn with rfl | hn
    · rw [hno] at hreaped
      cases hreaped
    · exact h r mid' hsince' ⟨n, hn, hreaped⟩

/-- A note that is neither an insertion nor a pass, with what it removes
taken from the set. -/
theorem record (h : Aged cfg reaper clock bag log)
    (hno : note.isReaped = false) (hins : note.inserts = none)
    (hsub : ∀ r ∈ bag'.entries, r ∈ bag.entries)
    (hkeep : ∀ r ∈ bag.entries, r ∈ bag'.entries ∨ r ∈ note.removes)
    (htimely : Timely cfg note log) :
    Aged cfg reaper clock bag' (note :: log) where
  made := by
    have heq : inserted (note :: log) = inserted log := by
      simp [inserted, hins]
    rw [heq]
    exact h.made
  kept := by
    intro r mid hsince
    rcases since_cons hsince with ⟨-, rfl⟩ | ⟨mid', rfl, hsince'⟩
    · cases hins
    · rcases h.kept r mid' hsince' with hmem | ⟨n, hn, hr⟩
      · rcases hkeep r hmem with hmem | hr
        · exact .inl hmem
        · exact .inr ⟨note, List.mem_cons_self, hr⟩
      · exact .inr ⟨n, List.mem_cons_of_mem _ hn, hr⟩
  passes := by
    intro timestamp now gone hmem
    rcases List.mem_cons.mp hmem with rfl | hmem
    · cases hno
    · obtain ⟨ht, hn, hle⟩ := h.passes timestamp now gone hmem
      exact ⟨ht, hn, fun r hr => hle r (hsub r hr)⟩
  cutoff := by
    intro timestamp heq
    obtain ⟨ht, hcut⟩ := h.cutoff timestamp heq
    exact ⟨ht, cutsOff_cons hcut hno⟩
  slept := h.slept
  erased := by
    intro timestamp diff heq
    obtain ⟨after, now, gone, before, rfl, hlen, hafter⟩ :=
      h.erased timestamp diff heq
    refine ⟨note :: after, now, gone, before, rfl, hlen, ?_⟩
    intro n hn
    rcases List.mem_cons.mp hn with rfl | hn
    · exact hno
    · exact hafter n hn
  timely := ⟨htimely, h.timely⟩

/-- A reservation is inserted now. -/
theorem insert (h : Aged cfg reaper clock bag log) (uuid : Str) :
    Aged cfg reaper clock (bag.insert ⟨uuid, clock⟩)
      (.inserted ⟨uuid, clock⟩ :: log) where
  made := by
    intro r hr
    rcases List.mem_cons.mp hr with rfl | hr
    · exact Int.le_refl _
    · exact h.made r hr
  kept := by
    intro r mid hsince
    rcases since_cons hsince with ⟨rfl, heq⟩ | ⟨mid', rfl, hsince'⟩
    · cases heq
      exact .inl (Bag.mem_insert.mpr (.inl rfl))
    · rcases h.kept r mid' hsince' with hmem | ⟨n, hn, hr⟩
      · exact .inl (Bag.mem_insert.mpr (.inr hmem))
      · exact .inr ⟨n, List.mem_cons_of_mem _ hn, hr⟩
  passes := by
    intro timestamp now gone hmem
    rcases List.mem_cons.mp hmem with heq | hmem
    · cases heq
    · obtain ⟨ht, hn, hle⟩ := h.passes timestamp now gone hmem
      refine ⟨ht, hn, fun r hr => ?_⟩
      rcases Bag.mem_insert.mp hr with rfl | hr
      · exact ht
      · exact hle r hr
  cutoff := by
    intro timestamp heq
    obtain ⟨ht, hcut⟩ := h.cutoff timestamp heq
    exact ⟨ht, cutsOff_cons hcut rfl⟩
  slept := h.slept
  erased := by
    intro timestamp diff heq
    obtain ⟨after, now, gone, before, rfl, hlen, hafter⟩ :=
      h.erased timestamp diff heq
    refine ⟨.inserted ⟨uuid, clock⟩ :: after, now, gone, before, rfl, hlen,
      ?_⟩
    intro n hn
    rcases List.mem_cons.mp hn with rfl | hn
    · rfl
    · exact hafter n hn
  timely := ⟨trivial, h.timely⟩

/-- The reaper takes its cut-off now. -/
theorem stamp (h : Aged cfg reaper clock bag log) :
    Aged cfg (.stamped clock) clock bag log where
  made := h.made
  kept := h.kept
  passes := h.passes
  cutoff := by
    intro timestamp heq
    obtain rfl := Option.some.inj heq
    exact ⟨Int.le_refl _, fun r mid hsince _ =>
      h.made r hsince.mem_inserted⟩
  slept := fun _ _ heq => by cases heq
  erased := fun _ _ heq => by cases heq
  timely := h.timely

/-- The reaper goes to sleep now. -/
theorem sleep {timestamp : Int}
    (h : Aged cfg (.stamped timestamp) clock bag log) :
    Aged cfg (.asleep timestamp clock) clock bag log where
  made := h.made
  kept := h.kept
  passes := h.passes
  cutoff := fun timestamp heq => h.cutoff timestamp heq
  slept := by
    intro timestamp' since heq
    cases heq
    exact (h.cutoff timestamp rfl).1
  erased := fun _ _ heq => by cases heq
  timely := h.timely

/-- The reaper wakes up and erases. -/
theorem reap {timestamp since : Int}
    (h : Aged cfg (.asleep timestamp since) clock bag log)
    (slept : since + sleepTime cfg ≤ clock) :
    Aged cfg (.erased timestamp (bag.below timestamp).length) clock
      (bag.eraseBelow timestamp)
      (.reaped timestamp clock (bag.below timestamp) :: log) where
  made := h.made
  kept := by
    intro r mid hsince
    rcases since_cons hsince with ⟨-, heq⟩ | ⟨mid', rfl, hsince'⟩
    · cases heq
    · rcases h.kept r mid' hsince' with hmem | ⟨n, hn, hr⟩
      · rw [← bag.eraseBelow_append timestamp] at hmem
        rcases List.mem_append.mp hmem with hbelow | hrest
        · exact .inr ⟨_, List.mem_cons_self, hbelow⟩
        · exact .inl hrest
      · exact .inr ⟨n, List.mem_cons_of_mem _ hn, hr⟩
  passes := by
    intro timestamp' now gone hmem
    rcases List.mem_cons.mp hmem with heq | hmem
    · cases heq
      exact ⟨(h.cutoff timestamp rfl).1, Int.le_refl _,
        fun r hr => Bag.le_of_mem_eraseBelow hr⟩
    · obtain ⟨ht, hn, hle⟩ := h.passes timestamp' now gone hmem
      exact ⟨ht, hn, fun r hr => hle r (Bag.mem_of_mem_eraseBelow hr)⟩
  cutoff := fun _ heq => by cases heq
  slept := fun _ _ heq => by cases heq
  erased := by
    intro timestamp' diff heq
    cases heq
    exact ⟨[], clock, _, log, rfl, rfl, fun _ hn => by cases hn⟩
  timely := by
    have hle := h.slept timestamp since rfl
    exact ⟨⟨fun r hr => Bag.lt_of_mem_below hr, by omega,
      (h.cutoff timestamp rfl).2⟩, h.timely⟩

/-- The reaper is back at its loop, or out of it. -/
theorem idle (h : Aged cfg reaper clock bag log) {reaper' : ReaperPhase}
    (hidle : reaper' = .loop ∨ reaper' = .stopped) :
    Aged cfg reaper' clock bag log where
  made := h.made
  kept := h.kept
  passes := h.passes
  cutoff := fun _ heq => by rcases hidle with rfl | rfl <;> cases heq
  slept := fun _ _ heq => by rcases hidle with rfl | rfl <;> cases heq
  erased := fun _ _ heq => by rcases hidle with rfl | rfl <;> cases heq
  timely := h.timely

-- ================================================================ preserved

/-- What a lookup writes down is timely. -/
theorem presented (h : Aged cfg reaper clock bag log) (i : Nat)
    (uuid : Str) :
    Timely cfg (.presented i uuid clock (bag.matching (·.uuid = uuid)))
      log := by
  refine ⟨fun r hr => of_decide_eq_true (List.mem_filter.mp hr).2,
    fun timestamp time gone hmem => (h.passes timestamp time gone hmem).2.1,
    fun hnone r mid hsince hu => ?_⟩
  rcases h.kept r mid hsince with hmem | hnote
  · have hr : r ∈ bag.matching (·.uuid = uuid) :=
      List.mem_filter.mpr ⟨hmem, decide_eq_true hu⟩
    rw [hnone] at hr
    cases hr
  · exact hnote

/-- A step of a call. -/
theorem callEffect (h : Aged cfg s.reaper s.clock s.reservations s.log)
    (hc : CallEffect cfg s i e c c' t) :
    Aged cfg t.reaper t.clock t.reservations t.log := by
  cases hc with
  | quiet => exact h
  | pass => exact h
  | grant => exact h
  | release => exact h
  | generate uuid =>
      exact h.record rfl rfl (fun _ hr => hr) (fun _ hr => .inl hr) trivial
  | insert uuid free => exact h.insert uuid
  | refuse host request free hnone =>
      have htimely := h.presented i request.uuid
      rw [hnone] at htimely
      exact h.record rfl rfl (fun _ hr => hr) (fun _ hr => .inl hr) htimely
  | take host request free hsome =>
      refine h.record rfl rfl (fun r hr => (Bag.mem_eraseIf.mp hr).1)
        (fun r hr => ?_) (h.presented i request.uuid)
      have hsplit := (s.reservations.eraseIf_perm
        (·.uuid = request.uuid)).mem_iff.mpr hr
      exact (List.mem_append.mp hsplit).symm
  | launch host request data input output args =>
      exact h.record rfl rfl (fun _ hr => hr) (fun _ hr => .inl hr) trivial

/-- A step of the machine. -/
theorem effect (h : Aged cfg s.reaper s.clock s.reservations s.log)
    (he : Effect cfg s e t) :
    Aged cfg t.reaper t.clock t.reservations t.log := by
  cases he with
  | tick ticks => exact h.tick ticks
  | requestStop => exact h
  | die => exact h
  | arrive => exact h
  | call cell hc =>
      have hmoved := h.callEffect hc
      exact hmoved
  | reaper hr =>
      cases hr with
      | stop => exact h.idle (.inr rfl)
      | stamp => exact h.stamp
      | subtract => exact h.idle (.inl rfl)
      | sleep timestamp hr =>
          rw [hr] at h
          exact h.sleep
      | reap timestamp since hr slept =>
          rw [hr] at h
          exact h.reap slept

end Aged

variable {start : Int} {Q : State → Event → Prop}

/-- Every state of every run. -/
theorem Aged.of_reaches (h : Reaches (step cfg) Q (State.start start) s) :
    Aged cfg s.reaper s.clock s.reservations s.log := by
  refine h.invariant
    (P := fun s => Aged cfg s.reaper s.clock s.reservations s.log)
    (Aged.start start) ?_
  intro s e t hs _ hse
  exact hs.effect (step_effect hse)

/-- Every cell of every state of every run. -/
theorem Answered.of_reaches
    (h : Reaches (step cfg) Q (State.start start) s) :
    ∀ i c, s.calls[i]? = some c → Answered i s.log c := by
  refine h.invariant
    (P := fun s => ∀ i c, s.calls[i]? = some c → Answered i s.log c)
    (fun _ _ hc => by cases hc) ?_
  intro s e t hs _ hse
  refine (step_effect hse).cells (P := Answered)
    (fun _ _ note _ hp => hp.cons note) ?_
    (fun _ _ _ _ hp hc => hp.callEffect hc) hs
  intro i log c ha
  cases ha <;> trivial

-- ============================================================= the sleep

/-- A timeout that fits signed seconds is slept in full. -/
theorem sleepTime_eq (h : cfg.reservationTimeout.toNat < 2 ^ 63) :
    sleepTime cfg = cfg.reservationTimeout.toNat * second := by
  have hint : cfg.reservationTimeout.toInt64.toInt
      = cfg.reservationTimeout.toNat := by
    show cfg.reservationTimeout.toBitVec.toInt = _
    rw [BitVec.toInt_eq_toNat_of_lt]
    · rfl
    · show 2 * cfg.reservationTimeout.toNat < 2 ^ 64
      omega
  rw [sleepTime, hint, second]
  omega

/-- What a pass removed was older than the timeout. -/
theorem reaped_old (h : Aged cfg reaper clock bag log)
    (hfit : cfg.reservationTimeout.toNat < 2 ^ 63)
    {timestamp now : Int} {gone : List Reservation}
    (hmem : .reaped timestamp now gone ∈ log) :
    ∀ r ∈ gone, r.time + cfg.reservationTimeout.toNat * second < now := by
  obtain ⟨after, before, -, hold, hslept, -⟩ := h.timely.of_mem hmem
  rw [sleepTime_eq hfit] at hslept
  intro r hr
  have := hold r hr
  omega

/-- A refused lookup within the timeout was not the first to present its
uuid since the reservation was made. -/
theorem presented_before (h : Aged cfg reaper clock bag log)
    (hfit : cfg.reservationTimeout.toNat < 2 ^ 63)
    {after before : List Note} {uuid : Str} {now : Int}
    (hlog : log = after ++ .presented i uuid now [] :: before)
    {r : Reservation} {mid : List Note} (hsince : Since before r mid)
    (hu : r.uuid = uuid)
    (hsoon : now ≤ r.time + cfg.reservationTimeout.toNat * second) :
    ∃ j time gone, .presented j uuid time gone ∈ mid := by
  have htimely := h.timely
  rw [hlog] at htimely
  obtain ⟨-, hpasses, hkept⟩ := htimely.at
  obtain ⟨n, hn, hr⟩ := hkept rfl r mid hsince hu
  obtain ⟨earlier, rfl⟩ := hsince
  have hbefore : n ∈ mid ++ .inserted r :: earlier :=
    List.mem_append_left _ hn
  have hmem : n ∈ log := by
    rw [hlog]
    exact List.mem_append_right _ (List.mem_cons_of_mem _ hbefore)
  obtain ⟨_, _, -, hnote⟩ := h.timely.of_mem hmem
  cases n with
  | presented j uuid' time gone =>
      obtain ⟨huuid, -⟩ := hnote
      have heq : uuid' = uuid := (huuid r hr).symm.trans hu
      exact ⟨j, time, gone, heq ▸ hn⟩
  | reaped timestamp time gone =>
      -- the pass came too late to have taken it
      have hold := reaped_old h hfit hmem r hr
      have hle := hpasses timestamp time gone hbefore
      omega
  | generated => cases hr
  | inserted => cases hr
  | started => cases hr

-- ================================================================ the pass

/-- The erasure of a pass, and what its note says of it. -/
theorem step_reap {timestamp since : Int}
    (hr : s.reaper = .asleep timestamp since)
    (hse : step cfg s .reaper = some t) :
    ∃ gone, t.log = .reaped timestamp s.clock gone :: s.log ∧
      gone ++ t.reservations.entries = s.reservations.entries ∧
      t.jobsRunning = s.jobsRunning := by
  simp only [step, reaperStep, hr] at hse
  split at hse
  case isTrue => cases hse
  case isFalse =>
    split at hse
    case isFalse => cases hse
    case isTrue =>
      obtain rfl := Option.some.inj hse
      exact ⟨_, rfl, s.reservations.eraseBelow_append timestamp, rfl⟩

/-- The subtraction of a pass. -/
theorem step_subtract {timestamp : Int} {diff : Nat}
    (hr : s.reaper = .erased timestamp diff)
    (hse : step cfg s .reaper = some t) :
    t.reservations = s.reservations ∧
      t.jobsRunning = s.jobsRunning - UInt64.ofNat diff := by
  simp only [step, reaperStep, hr] at hse
  split at hse
  case isTrue => cases hse
  case isFalse =>
    obtain rfl := Option.some.inj hse
    exact ⟨rfl, rfl⟩

-- ============================================================== the results

/-- The life of a reservation, on every run with a timeout that fits signed
seconds.

- What a pass removed was made more than the timeout before. A refused call
  presented its uuid more than the timeout after the insertion, or some
  other call had presented it in between.
- Past the erasure of a pass nothing older than its start is in the set. Of
  the passes that ended while a reservation was in the set, only the first
  can have started before it was made; another one started on its tick.
- A pass subtracts the number of entries it removed. -/
theorem lifetime (hfit : cfg.reservationTimeout.toNat < 2 ^ 63)
    (h : Reaches (step cfg) (fun _ _ => True) (State.start start) s) :
    ((∀ timestamp now gone, .reaped timestamp now gone ∈ s.log →
        ∀ r ∈ gone, r.time + cfg.reservationTimeout.toNat * second < now) ∧
      (∀ i host request status answer,
        s.calls[i]? = some (.distribute host request
          (.returned status answer)) →
        status.code = .FAILED_PRECONDITION →
        ∃ after now before,
          s.log = after ++ .presented i request.uuid now [] :: before ∧
          ∀ r mid, Since before r mid → r.uuid = request.uuid →
            now ≤ r.time + cfg.reservationTimeout.toNat * second →
            ∃ j time gone, .presented j request.uuid time gone ∈ mid)) ∧
    ((∀ timestamp now gone, .reaped timestamp now gone ∈ s.log →
        ∀ r ∈ s.reservations.entries, timestamp ≤ r.time) ∧
      (∀ r mid, Since s.log r mid → r ∈ s.reservations.entries →
        ∀ later timestamp now gone earlier,
          mid = later ++ .reaped timestamp now gone :: earlier →
          (∃ n ∈ earlier, n.isReaped = true) → timestamp = r.time)) ∧
    ((∀ timestamp since t, s.reaper = .asleep timestamp since →
        step cfg s .reaper = some t →
        ∃ gone, t.log = .reaped timestamp s.clock gone :: s.log ∧
          gone ++ t.reservations.entries = s.reservations.entries ∧
          t.jobsRunning = s.jobsRunning) ∧
      (∀ timestamp diff t, s.reaper = .erased timestamp diff →
        step cfg s .reaper = some t →
        ∃ after now gone before,
          s.log = after ++ .reaped timestamp now gone :: before ∧
          (∀ n ∈ after, n.isReaped = false) ∧
          t.reservations = s.reservations ∧
          t.jobsRunning = s.jobsRunning - UInt64.ofNat gone.length ∧
          (gone.length ≤ s.jobsRunning.toNat →
            t.jobsRunning.toNat + gone.length = s.jobsRunning.toNat))) := by
  have ha : Aged cfg s.reaper s.clock s.reservations s.log := .of_reaches h
  refine ⟨⟨fun _ _ _ hmem => reaped_old ha hfit hmem, ?_⟩,
    ⟨fun _ _ _ hmem => (ha.passes _ _ _ hmem).2.2, ?_⟩,
    ⟨fun _ _ _ hr hse => step_reap hr hse, ?_⟩⟩
  · intro i host request status answer cell hcode
    have hanswered := Answered.of_reaches h i _ cell
    rcases hanswered with hpast | ⟨now, hmem⟩
    · exact absurd hcode hpast
    · obtain ⟨after, before, hlog⟩ := List.append_of_mem hmem
      exact ⟨after, now, before, hlog, fun r mid hsince hu hsoon =>
        presented_before ha hfit hlog hsince hu hsoon⟩
  · intro r mid hsince hmem later timestamp now gone earlier hmid hpass
    obtain ⟨before, hlog⟩ := hsince
    have hnote : .reaped timestamp now gone ∈ s.log := by
      rw [hlog, hmid]
      simp
    have htimely := ha.timely
    rw [hlog, hmid, List.append_assoc, List.cons_append] at htimely
    obtain ⟨-, -, hcut⟩ := htimely.at
    exact Int.le_antisymm ((ha.passes _ _ _ hnote).2.2 r hmem)
      (hcut r earlier ⟨before, rfl⟩ hpass)
  · intro timestamp diff t hr hse
    obtain ⟨after, now, gone, before, hlog, hlen, hafter⟩ :=
      ha.erased timestamp diff hr
    obtain ⟨hset, hjobs⟩ := step_subtract hr hse
    rw [← hlen] at hjobs
    refine ⟨after, now, gone, before, hlog, hafter, hset, hjobs,
      fun hle => ?_⟩
    rw [hjobs, Move.toNat_sub_ofNat hle]
    omega

/-- A reservation that is reaped after one second, then presented. -/
def reapedRun : List Event :=
  .reserve :: reserveRun 0 "a".toList ++ [.tick 1, .reaper, .reaper,
    .tick 1000000000, .reaper, .reaper,
    .distribute plainHost (plainRequest "a".toList), .advance 1]

theorem lifetime_reaped :
    ∃ s, runList (step ⟨1, 1⟩) (State.start 0) reapedRun = some s ∧
      .reaped 1 1000000001 [⟨"a".toList, 0⟩] ∈ s.log ∧
      0 + 1 * second < 1000000001 := by
  have hrun : runList (step ⟨1, 1⟩) (State.start 0) reapedRun
      = some _ := rfl
  have h := lifetime (by decide) (Reaches.of_runList (q := fun _ _ => true)
    (fun _ _ _ => trivial) reapedRun hrun (by decide))
  refine ⟨_, hrun, by decide, ?_⟩
  exact h.1.1 1 1000000001 [⟨"a".toList, 0⟩] (by decide) _
    List.mem_cons_self

/-- A reservation made while the reaper sleeps, a second on; the next pass
starts on the same clock tick. -/
def tiedRun : List Event :=
  [.reaper, .reaper, .tick 1000000000, .reserve] ++ reserveRun 0 "a".toList ++
    [.reaper, .reaper, .reaper, .reaper, .tick 1000000000, .reaper, .reaper]

/-- It outlives the pass it was made in and a full one. -/
theorem tied_outlives :
    ¬∀ s, Reaches (step ⟨1, 1⟩) (fun _ _ => True) (State.start 0) s →
      ∀ r mid, Since s.log r mid → r ∈ s.reservations.entries →
        mid.countP Note.isReaped ≤ 1 := by
  intro h
  have hrun : runList (step ⟨1, 1⟩) (State.start 0) tiedRun = some _ := rfl
  have hreach := Reaches.of_runList (q := fun _ _ => true)
    (Q := fun _ _ => True) (fun _ _ _ => trivial) tiedRun hrun (by decide)
  have hcount := h _ hreach ⟨"a".toList, 1000000000⟩
    [.reaped 1000000000 2000000000 [], .reaped 0 1000000000 []] ⟨_, rfl⟩
    (List.mem_singleton_self _)
  revert hcount
  decide

end Distplusplus.Server
