/-
Rejections.

`Reserve` answers "host is full" in two places. The check is honest: the
counter is at the limit when it fails. The exchange is tried once, and it
fails whenever the counter has moved since it was loaded, whichever way and
by whom: two calls on an idle server are enough (`rejected_idle`).

`rejection_justified` says what has to be kept from happening: that between
the load and the exchange of a call the counter moves to another value below
the limit (`keepsLoaded`). The grant of the last slot may come in between,
since the server is full then. Where the counter does move, the next step of
the call is a rejection, and nothing justifies it unless the server was full
earlier in the call.
-/
import Distplusplus.Lib.Trace
import Distplusplus.Server.Proofs.Effects

namespace Distplusplus.Server

open Lib Common

variable {cfg : Config} {s t : State} {e : Event} {i : Nat} {c : Call}
variable {past : List (State × Event)}

-- ============================================================== rejections

/-- The call has returned `RESOURCE_EXHAUSTED`. -/
def Rejected (c : Call) : Prop :=
  ∃ status answer, c = .reserve (.returned status answer) ∧
    status.code = .RESOURCE_EXHAUSTED

/-- Call `i` is in progress, and the counter is at the limit. -/
def fullDuring (cfg : Config) (i : Nat) (s : State) : Bool :=
  (s.calls[i]?.any Call.inProgress) && decide (cfg.jobsMax ≤ s.jobsRunning)

/-- Every rejected call has seen a full server. -/
def Justified (cfg : Config) (past : List (State × Event)) (s : State) :
    Prop :=
  ∀ i c, s.calls[i]? = some c → Rejected c →
    ∃ p ∈ past, fullDuring cfg i p.1 = true

/-- The event is the next step of call `i`. -/
def moves (i : Nat) : Event → Bool
  | .advance j => decide (j = i)
  | _ => false

/-- A call waits at its exchange, the counter is as it has loaded it, and
below the limit. -/
def awaits (cfg : Config) (s : State) : Call → Bool
  | .reserve (.exchange jobsCur) =>
      decide (s.jobsRunning = jobsCur ∧ jobsCur < cfg.jobsMax)
  | _ => false

/-- The event leaves the counter as it is, or at the limit. -/
def leavesOrFills (cfg : Config) (s : State) (e : Event) : Bool :=
  (step cfg s e).all fun t => decide (t.jobsRunning = s.jobsRunning) ||
    decide (cfg.jobsMax ≤ t.jobsRunning)

/-- While a call is between its load and its exchange, nobody else moves the
counter to another value below the limit. -/
def keepsLoaded (cfg : Config) (s : State) (e : Event) : Bool :=
  s.calls.zipIdx.all fun p =>
    !awaits cfg s p.1 || moves p.2 e || leavesOrFills cfg s e

-- ============================================================ step by step

/-- A step that rejects its call. -/
theorem CallEffect.rejects {c' : Call} (h : CallEffect cfg s i e c c' t)
    (hc : Rejected c') :
    (c = .reserve .check ∧ cfg.jobsMax ≤ s.jobsRunning) ∨
      e = .advance i ∧ ∃ jobsCur, c = .reserve (.exchange jobsCur) ∧
        s.jobsRunning ≠ jobsCur := by
  obtain ⟨status, answer, heq, hcode⟩ := hc
  cases h with
  | quiet hq =>
      cases hq with
      | full hge => exact .inl ⟨rfl, UInt64.not_lt.mp hge⟩
      | lost jobsCur hne => exact .inr ⟨rfl, jobsCur, rfl, hne⟩
      | defused uuid =>
          cases heq
          cases hcode
      | load => cases heq
      | throws => cases heq
      | body => cases heq
  | release hr =>
      cases hr with
      | unwind => cases heq
      | leave => cases heq
  | pass => cases heq
  | grant => cases heq
  | generate => cases heq
  | insert => cases heq
  | refuse => cases heq
  | take => cases heq
  | launch => cases heq

/-- How a call comes to be rejected: it was before, or it fails its check
or its exchange now. -/
theorem rejected_cases (h : step cfg s e = some t)
    (hi : t.calls[i]? = some c) (hc : Rejected c) :
    s.calls[i]? = some c ∨
      (s.calls[i]? = some (.reserve .check) ∧
        cfg.jobsMax ≤ s.jobsRunning) ∨
      e = .advance i ∧ ∃ jobsCur,
        s.calls[i]? = some (.reserve (.exchange jobsCur)) ∧
          s.jobsRunning ≠ jobsCur := by
  cases step_effect h with
  | tick => exact .inl hi
  | requestStop => exact .inl hi
  | die => exact .inl hi
  | reaper hr =>
      rw [hr.calls_eq] at hi
      exact .inl hi
  | arrive ha =>
      rcases getElem?_append_one_cases hi with ⟨-, rfl⟩ | hold
      · obtain ⟨status, answer, heq, -⟩ := hc
        cases ha with
        | reserve => cases heq
        | distribute => cases heq
      · exact .inl hold
  | call cell heffect =>
      rw [State.setCall, heffect.calls_eq] at hi
      rcases getElem?_set_cases cell hi with ⟨rfl, rfl⟩ | ⟨-, hold⟩
      · rcases heffect.rejects hc with ⟨rfl, hge⟩ | ⟨he, cur, rfl, hne⟩
        · exact .inr (.inl ⟨cell, hge⟩)
        · exact .inr (.inr ⟨he, cur, cell, hne⟩)
      · exact .inl hold

/-- A lost exchange rejects its call. -/
theorem exchange_lost {jobsCur : UInt64}
    (cell : s.calls[i]? = some (.reserve (.exchange jobsCur)))
    (hne : s.jobsRunning ≠ jobsCur)
    (h : step cfg s (.advance i) = some t) :
    t.calls[i]? = some (.reserve (full s.jobsRunning)) := by
  obtain ⟨hi, -⟩ := List.getElem?_eq_some_iff.mp cell
  simp only [step, advanceStep, cell, reserveStep, if_neg hne] at h
  split_ifs at h
  cases h
  exact List.getElem?_set_self hi

/-- A call does not exchange twice. -/
theorem exchange_once {jobsCur jobsCur' : UInt64}
    (cell : s.calls[i]? = some (.reserve (.exchange jobsCur)))
    (h : step cfg s (.advance i) = some t) :
    t.calls[i]? ≠ some (.reserve (.exchange jobsCur')) := by
  by_cases hsame : s.jobsRunning = jobsCur
  · obtain ⟨hi, -⟩ := List.getElem?_eq_some_iff.mp cell
    simp only [step, advanceStep, cell, reserveStep, if_pos hsame] at h
    split_ifs at h
    cases h
    rw [State.setCall, List.getElem?_set_self hi]
    intro heq
    cases heq
  · rw [exchange_lost cell hsame h]
    intro heq
    cases heq

/-- How a call comes to wait at its exchange: it has waited before and has
not moved, or it has loaded the counter now. -/
theorem exchange_cases {jobsCur : UInt64} (h : step cfg s e = some t)
    (hi : t.calls[i]? = some (.reserve (.exchange jobsCur))) :
    (s.calls[i]? = some (.reserve (.exchange jobsCur)) ∧
        moves i e = false) ∨ t.jobsRunning = jobsCur := by
  have hstays : s.calls[i]? = some (.reserve (.exchange jobsCur)) →
      moves i e = false := by
    intro cell
    by_contra hmoves
    rw [Bool.not_eq_false] at hmoves
    cases e with
    | advance j =>
        obtain rfl := of_decide_eq_true hmoves
        exact exchange_once cell h hi
    | _ => cases hmoves
  cases step_effect h with
  | tick => exact .inl ⟨hi, hstays hi⟩
  | requestStop => exact .inl ⟨hi, hstays hi⟩
  | die => exact .inl ⟨hi, hstays hi⟩
  | reaper hr =>
      rw [hr.calls_eq] at hi
      exact .inl ⟨hi, hstays hi⟩
  | arrive ha =>
      rcases getElem?_append_one_cases hi with ⟨-, rfl⟩ | hold
      · cases ha
      · exact .inl ⟨hold, hstays hold⟩
  | call cell heffect =>
      rw [State.setCall, heffect.calls_eq] at hi
      rcases getElem?_set_cases cell hi with ⟨rfl, rfl⟩ | ⟨-, hold⟩
      · cases heffect with
        | quiet hq =>
            cases hq
            exact .inr rfl
        | release hr => cases hr
      · exact .inl ⟨hold, hstays hold⟩

/-- A call waits while others move. -/
theorem exchange_waits {jobsCur : UInt64}
    (cell : s.calls[i]? = some (.reserve (.exchange jobsCur)))
    (hmoves : moves i e = false) (h : step cfg s e = some t) :
    t.calls[i]? = some (.reserve (.exchange jobsCur)) := by
  obtain ⟨hi, -⟩ := List.getElem?_eq_some_iff.mp cell
  have hother : e ≠ .advance i := by
    rintro rfl
    rw [moves, decide_eq_true rfl] at hmoves
    cases hmoves
  cases step_effect h with
  | tick => exact cell
  | requestStop => exact cell
  | die => exact cell
  | reaper hr =>
      rw [hr.calls_eq]
      exact cell
  | arrive ha => exact (List.getElem?_append_left hi).trans cell
  | @call _ j c c' u cell' heffect =>
      rw [State.setCall, heffect.calls_eq]
      by_cases hij : j = i
      · subst hij
        cases cell.symm.trans cell'
        cases heffect with
        | quiet hq =>
            cases hq
            exact absurd rfl hother
        | grant => exact absurd rfl hother
        | release hr => cases hr
      · rw [List.getElem?_set_ne hij]
        exact cell

/-- What the guard says of one call. -/
theorem keepsLoaded_at {jobsCur : UInt64} (hq : keepsLoaded cfg s e = true)
    (cell : s.calls[i]? = some (.reserve (.exchange jobsCur)))
    (hsame : s.jobsRunning = jobsCur) (hlt : jobsCur < cfg.jobsMax)
    (hmoves : moves i e = false) (h : step cfg s e = some t) :
    t.jobsRunning = jobsCur ∨ cfg.jobsMax ≤ t.jobsRunning := by
  have hmem : (Call.reserve (.exchange jobsCur), i) ∈ s.calls.zipIdx :=
    List.mem_zipIdx_iff_getElem?.mpr cell
  have hat := List.all_eq_true.mp hq _ hmem
  simp only [awaits, hsame, hlt, and_self, decide_true, Bool.not_true,
    hmoves, Bool.or_false, Bool.false_or, leavesOrFills, h, Option.all_some,
    Bool.or_eq_true, decide_eq_true_iff] at hat
  exact hat

-- ================================================================ the runs

/-- A call that is in progress at the limit has seen a full server. -/
theorem fullDuring_of (cell : s.calls[i]? = some c)
    (hp : c.inProgress = true) (hge : cfg.jobsMax ≤ s.jobsRunning) :
    fullDuring cfg i s = true := by
  simp [fullDuring, cell, hp, hge]

/-- A call at its exchange will succeed, or has seen a full server. -/
def Watchful (cfg : Config) (past : List (State × Event)) (s : State) :
    Prop :=
  ∀ (i : Nat) jobsCur, s.calls[i]? = some (.reserve (.exchange jobsCur)) →
    s.jobsRunning = jobsCur ∨
      ∃ u ∈ s :: past.map Prod.fst, fullDuring cfg i u = true

theorem Watchful.step (hw : Watchful cfg past s)
    (hq : keepsLoaded cfg s e = true) (h : Server.step cfg s e = some t) :
    Watchful cfg ((s, e) :: past) t := by
  intro i jobsCur hi
  rcases exchange_cases h hi with ⟨cell, hmoves⟩ | hloaded
  · rcases hw i jobsCur cell with hsame | ⟨u, hu, hfull⟩
    · by_cases hlt : jobsCur < cfg.jobsMax
      · refine (keepsLoaded_at hq cell hsame hlt hmoves h).imp_right
          fun hge => ⟨t, List.mem_cons_self .., fullDuring_of hi rfl hge⟩
      · have hge : cfg.jobsMax ≤ s.jobsRunning :=
          hsame ▸ UInt64.not_lt.mp hlt
        exact .inr ⟨s, List.mem_cons_of_mem _ (List.mem_cons_self ..),
          fullDuring_of cell rfl hge⟩
    · exact .inr ⟨u, List.mem_cons_of_mem _ hu, hfull⟩
  · exact .inl hloaded

/-- A step keeps every rejection justified. -/
theorem Justified.step (hj : Justified cfg past s)
    (hw : Watchful cfg past s) (h : Server.step cfg s e = some t) :
    Justified cfg ((s, e) :: past) t := by
  intro i c hi hc
  rcases rejected_cases h hi hc with hold | ⟨cell, hge⟩ | ⟨rfl, cur, cell, hne⟩
  · obtain ⟨p, hp, hfull⟩ := hj i c hold hc
    exact ⟨p, List.mem_cons_of_mem _ hp, hfull⟩
  · exact ⟨_, List.mem_cons_self .., fullDuring_of cell rfl hge⟩
  · obtain ⟨u, hu, hfull⟩ := (hw i cur cell).resolve_left hne
    rcases List.mem_cons.mp hu with rfl | hu
    · exact ⟨_, List.mem_cons_self .., hfull⟩
    · obtain ⟨p, hp, rfl⟩ := List.mem_map.mp hu
      exact ⟨p, List.mem_cons_of_mem _ hp, hfull⟩

/-- As long as nobody moves the counter to another value below the limit
between the load and the exchange of a call, every rejected call has seen a
full server. Where somebody does, and the server was not full so far in the
call, the next step of the call is a rejection that is not justified. -/
theorem rejection_justified {clock : Int}
    (h : Traces (Server.step cfg) (fun _ s e => keepsLoaded cfg s e = true)
      (State.start clock) past s) :
    Justified cfg past s ∧
      ∀ (i : Nat) jobsCur e t u,
        s.calls[i]? = some (.reserve (.exchange jobsCur)) →
        (∀ p ∈ (s, e) :: past, fullDuring cfg i p.1 = false) →
        Server.step cfg s e = some t → moves i e = false →
        t.jobsRunning ≠ jobsCur → t.jobsRunning < cfg.jobsMax →
        Server.step cfg t (.advance i) = some u →
        ¬Justified cfg ((t, .advance i) :: (s, e) :: past) u := by
  constructor
  · have hboth : Watchful cfg past s ∧ Justified cfg past s := by
      refine h.invariant (P := fun past s => Watchful cfg past s ∧
        Justified cfg past s) ?_ ?_
      · constructor
        · intro i jobsCur hi
          cases hi
        · intro i c hi
          cases hi
      · intro past s e t hs hq hse
        exact ⟨hs.1.step hq hse, hs.2.step hs.1 hse⟩
    exact hboth.2
  · intro i jobsCur e t u cell hnever hse hmoves hne hbelow hlast hj
    have hwaits := exchange_waits cell hmoves hse
    obtain ⟨p, hp, hfull⟩ :=
      hj i _ (exchange_lost hwaits hne hlast) ⟨_, _, rfl, rfl⟩
    rcases List.mem_cons.mp hp with rfl | hp
    · rw [fullDuring, Bool.and_eq_true, decide_eq_true_iff] at hfull
      exact UInt64.not_le.mpr hbelow hfull.2
    · rw [hnever p hp] at hfull
      cases hfull

/-- One slot, taken while a second call is between its loads: the second
call loses its exchange to a server that is full. -/
def fullRun : List Event :=
  [.reserve, .reserve, .advance 0, .advance 1, .advance 0, .advance 1,
    .advance 0, .advance 1]

theorem rejection_justified_full :
    ∃ past s, Traces (Server.step ⟨1, 60⟩)
        (fun _ s e => keepsLoaded ⟨1, 60⟩ s e = true)
        (State.start 0) past s ∧
      s.calls[1]? = some (.reserve (full 1)) ∧
      ∃ p ∈ past, fullDuring ⟨1, 60⟩ 1 p.1 = true := by
  have hrun : traceList (Server.step ⟨1, 60⟩) [] (State.start 0) fullRun =
      some _ := rfl
  have h := Traces.of_traceList (q := fun _ s e => keepsLoaded ⟨1, 60⟩ s e)
    (Q := fun _ s e => keepsLoaded ⟨1, 60⟩ s e = true)
    (fun _ _ _ h => h) fullRun hrun (by decide)
  refine ⟨_, _, h, rfl, ?_⟩
  exact (rejection_justified h).1 1 _ rfl ⟨_, _, rfl, rfl⟩

/-- On a server with a hundred slots and two calls the second is turned
away. -/
theorem rejected_idle :
    ∃ past s, Traces (Server.step ⟨100, 60⟩) (fun _ _ _ => True)
        (State.start 0) past s ∧
      s.calls[1]? = some (.reserve (full 1)) ∧
      ¬Justified ⟨100, 60⟩ past s := by
  have hrun : traceList (Server.step ⟨100, 60⟩) [] (State.start 0) fullRun =
      some _ := rfl
  have h := Traces.of_traceList (q := fun _ _ _ => true)
    (Q := fun _ _ _ => True) (fun _ _ _ _ => trivial) fullRun hrun (by decide)
  refine ⟨_, _, h, rfl, fun hj => ?_⟩
  obtain ⟨p, hp, hfull⟩ := hj 1 _ rfl ⟨_, _, rfl, rfl⟩
  revert hfull
  revert p
  decide

end Distplusplus.Server
