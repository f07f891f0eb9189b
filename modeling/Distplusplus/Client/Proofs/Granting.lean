/-
Whose reservation a job is sent under.

`send` goes by the status of `Reserve` alone. A server that answers `OK`
and does not grant gets the job all the same, under the uuid that is in the
member: the empty one, or one that another server gave away with a status
that was not `OK`. And the name of a status that is not in the table is an
exception nobody catches, as it is after `Distribute`.

`jobs_granted` says that there is no other way: as long as every answer is
`Honest`, a job is sent only to the server that answered last, under the
uuid it granted; and the first answer that is not breaks it.
-/
import Distplusplus.Client.Send
import Distplusplus.Lib.Trace

namespace Distplusplus.Client.Send

open Lib Common

variable {cfg : Config} {s t : State} {e : Event}
variable {past : List (State × Event)} {server stub uuid : Str}
variable {rest : List Str} {status : ReceivedStatus}
variable {answer : ReservationAnswer}

-- ======================================================= the specification

/-- The last thing that happened: the server `stub` answered, and granted
the reservation the request is sent under. -/
def GrantedBy (past : List (State × Event)) (stub : Str)
    (compileRequest : CompileRequest) : Prop :=
  ∃ s rest status answer past',
    past = (s, .reserve status answer) :: past' ∧
      s.phase = .reserving stub rest ∧ answer.success = true ∧
      answer.uuid = some compileRequest.uuid

/-- A job that is being sent was granted; who gives up, falls back. -/
def Proper (past : List (State × Event)) (s : State) : Prop :=
  match s.phase with
  | .distributing stub compileRequest => GrantedBy past stub compileRequest
  | .gaveUp thrown => thrown = .fallbackSignal
  | .reserving _ _ | .roundOver | .done _ => True

/-- The name of the status can be logged. -/
def Named (cfg : Config) (status : ReceivedStatus) : Prop :=
  Loggable cfg.logsWarnings status

/-- An answer of status `OK` grants; one of another status has a name, or is
not looked at because it grants without a uuid. -/
def Honest (cfg : Config) : Event → Prop
  | .reserve status answer =>
      (status.code = 0 → answer.success = true) ∧
        (answer.success = true ∧ answer.uuid = none ∨ Named cfg status)
  | .clock _ | .distribute _ _ => True

instance : Decidable (Named cfg status) := inferInstanceAs (Decidable (_ → _))

instance : DecidablePred (Honest cfg)
  | .reserve _ _ => inferInstanceAs (Decidable (_ ∧ _))
  | .clock _ => inferInstanceAs (Decidable True)
  | .distribute _ _ => inferInstanceAs (Decidable True)

-- ================================================================= pieces

/-- Going on is always proper. -/
theorem proper_nextServer (past : List (State × Event)) (s : State)
    (rest : List Str) : Proper past (nextServer s rest) := by
  unfold nextServer Proper
  cases rest with
  | cons server rest => trivial
  | nil =>
      dsimp only
      split_ifs
      · rfl
      · trivial

/-- A status other than `OK` is proper when its name can be logged. -/
theorem proper_reserved (hcode : status.code ≠ 0) (hname : Named cfg status)
    (past : List (State × Event)) (s : State) :
    Proper past (reserved cfg status server rest s) := by
  unfold reserved
  rw [if_neg hcode]
  split_ifs with hfull hdown hlogs
  · exact proper_nextServer ..
  · exact proper_nextServer ..
  · obtain ⟨name, hok⟩ := mapGRPCStatus_listed (hname hlogs)
    rw [hok]
    exact proper_nextServer ..
  · exact proper_nextServer ..

/-- It is not when there is no name. -/
theorem not_proper_reserved (hname : ¬Named cfg status)
    (past : List (State × Event)) (s : State) :
    ¬Proper past (reserved cfg status server rest s) := by
  simp only [Named, Classical.not_imp] at hname
  obtain ⟨hlogs, hcode⟩ := hname
  have hne : ∀ c, Listed c → status.code ≠ c :=
    fun c hc heq => hcode (heq ▸ hc)
  obtain ⟨e, he⟩ := mapGRPCStatus_unlisted hcode
  unfold reserved
  rw [if_neg (hne 0 (by decide)), if_neg (hne 8 (by decide)),
    if_neg (hne 14 (by decide)), if_pos hlogs, he]
  intro h
  cases h

-- ================================================================ one step

/-- An event that is not an answer to `Reserve` is proper. -/
theorem proper_of_quiet (hquiet : ∀ status answer, e ≠ .reserve status answer)
    (h : step cfg s e = some t) (past : List (State × Event)) :
    Proper past t := by
  cases e with
  | reserve status answer => exact absurd rfl (hquiet status answer)
  | clock late =>
      simp only [step] at h
      cases hp : s.phase with
      | roundOver =>
          rw [hp] at h
          cases late with
          | true =>
              cases h
              rfl
          | false =>
              cases h
              exact proper_nextServer ..
      | reserving | gaveUp | distributing | done =>
          rw [hp] at h
          cases h
  | distribute status answer =>
      simp only [step] at h
      cases hp : s.phase with
      | distributing stub request =>
          rw [hp] at h
          cases h
          trivial
      | reserving | gaveUp | roundOver | done =>
          rw [hp] at h
          cases h

/-- An answer to `Reserve` reaches a client that waits for one. It makes
the client fall back, or leaves the uuid it brought, if it granted. -/
theorem reserve_cases (h : step cfg s (.reserve status answer) = some t) :
    ∃ server rest, s.phase = .reserving server rest ∧
      (answer.success = true ∧ answer.uuid = none ∧
          t = { s with phase := .gaveUp .fallbackSignal } ∨
        ∃ uuid, (answer.success = true → answer.uuid = some uuid) ∧
          ¬(answer.success = true ∧ answer.uuid = none) ∧
          t = reserved cfg status server rest { s with uuid := uuid }) := by
  simp only [step] at h
  cases hp : s.phase with
  | roundOver | gaveUp | distributing | done =>
      rw [hp] at h
      cases h
  | reserving server rest =>
      rw [hp] at h
      refine ⟨server, rest, rfl, ?_⟩
      unfold reserve at h
      cases hs : answer.success with
      | false =>
          rw [hs] at h
          cases h
          exact .inr ⟨s.uuid, nofun, fun hc => (by cases hc.1), rfl⟩
      | true =>
          rw [hs] at h
          cases hu : answer.uuid with
          | none =>
              rw [hu] at h
              cases h
              exact .inl ⟨rfl, rfl, rfl⟩
          | some uuid =>
              rw [hu] at h
              cases h
              exact .inr ⟨uuid, fun _ => rfl, fun hc => (by cases hc.2), rfl⟩

/-- An honest step is proper, whatever went before. -/
theorem proper_of_honest (he : Honest cfg e) (h : step cfg s e = some t)
    (past : List (State × Event)) : Proper ((s, e) :: past) t := by
  cases e with
  | clock late => exact proper_of_quiet (fun _ _ he => by cases he) h _
  | distribute status answer =>
      exact proper_of_quiet (fun _ _ he => by cases he) h _
  | reserve status answer =>
      obtain ⟨hgrants, hnamed⟩ := he
      obtain ⟨server, rest, hp, hcase⟩ := reserve_cases h
      rcases hcase with ⟨-, -, rfl⟩ | ⟨uuid, huuid, hno, rfl⟩
      · rfl
      · by_cases hcode : status.code = 0
        · unfold reserved
          rw [if_pos hcode]
          exact ⟨s, rest, status, answer, past, rfl, hp, hgrants hcode,
            huuid (hgrants hcode)⟩
        · exact proper_reserved hcode (hnamed.resolve_left hno) _ _

/-- One that is not, is not. -/
theorem not_proper_of_not_honest (he : ¬Honest cfg e)
    (h : step cfg s e = some t) (past : List (State × Event)) :
    ¬Proper ((s, e) :: past) t := by
  cases e with
  | clock late => exact absurd trivial he
  | distribute status answer => exact absurd trivial he
  | reserve status answer =>
      obtain ⟨server, rest, hp, hcase⟩ := reserve_cases h
      rcases hcase with ⟨hs, hu, -⟩ | ⟨uuid, -, -, rfl⟩
      · exact absurd ⟨fun _ => hs, .inl ⟨hs, hu⟩⟩ he
      · by_cases hname : Named cfg status
        · -- then it is an `OK` that does not grant
          have hdenies : status.code = 0 ∧ answer.success ≠ true := by
            by_contra hc
            exact he ⟨fun h0 => by_contra fun hs => hc ⟨h0, hs⟩, .inr hname⟩
          unfold reserved
          rw [if_pos hdenies.1]
          intro hproper
          obtain ⟨_, _, _, _, _, hpast, -, hs, -⟩ := hproper
          cases hpast
          exact hdenies.2 hs
        · exact not_proper_reserved hname _ _

-- ============================================================ the theorem

/-- In every run of honest answers a job is sent only under the reservation
that the last answer granted, to the server that granted it, and giving up
is falling back. The first answer that is not honest breaks this. -/
theorem jobs_granted
    (h : Traces (step cfg) (fun _ _ e => Honest cfg e) (start cfg) past s) :
    Proper past s ∧ ∀ e t, ¬Honest cfg e → step cfg s e = some t →
      ¬Proper ((s, e) :: past) t := by
  refine ⟨?_, fun e t he hse => not_proper_of_not_honest he hse past⟩
  exact h.invariant (proper_nextServer ..) fun past s e t _ he hse =>
    proper_of_honest he hse past

/-- Two servers, and a job. -/
def twoServers : Config :=
  ⟨table ["a", "b"], ⟨"gcc".toList, [], "x.c".toList, [],
    CompressionType.NONE, "/".toList⟩, true, true⟩

/-- The first server is full, the second grants. -/
theorem jobs_granted_second :
    ∃ past s, Traces (step twoServers) (fun _ _ e => Honest twoServers e)
        (start twoServers) past s ∧
      s.phase = .distributing "b".toList
        (twoServers.job.compileRequest "u".toList) ∧
      GrantedBy past "b".toList
        (twoServers.job.compileRequest "u".toList) := by
  have h : Traces (step twoServers) (fun _ _ e => Honest twoServers e)
      (start twoServers) _ _ :=
    .step (.reserve ⟨0, [], []⟩ ⟨true, some "u".toList⟩)
      (.step (.reserve ⟨8, [], []⟩ ⟨false, none⟩) .start (by decide) rfl)
      (by decide) rfl
  exact ⟨_, _, h, rfl, (jobs_granted h).1⟩

/-- The first server is full and says a uuid, the second says `OK` and does
not grant: it gets the job, under the uuid of the first. -/
theorem stale_uuid :
    ∃ past s, Traces (step twoServers) (fun _ _ _ => True)
        (start twoServers) past s ∧
      s.phase = .distributing "b".toList
        (twoServers.job.compileRequest "u".toList) ∧ ¬Proper past s := by
  refine ⟨_, _, .step (.reserve ⟨0, [], []⟩ ⟨false, none⟩)
    (.step (.reserve ⟨8, [], []⟩ ⟨true, some "u".toList⟩) .start trivial rfl)
    trivial rfl, rfl, fun hproper => ?_⟩
  obtain ⟨_, _, _, _, _, hpast, -, hs, -⟩ := hproper
  cases hpast
  cases hs

end Distplusplus.Client.Send
