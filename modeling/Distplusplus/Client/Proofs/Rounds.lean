/-
Whom `send` asks, how often, and why it stops.

`send` goes round its servers in their order and starts over: the `Reserve`
calls of a run, in the order they are made, are whole rounds and then a
part of one. A round that ends costs a look at the clock, so the clock
bounds the calls; the job is sent once at most, to the server asked last,
and nothing comes after it.

`allDown` is set before the first round and never again: "all specified
hosts were unreachable" can only be thrown at the end of the first one, and
a client whose servers all go down later asks them until it is late.
-/
import Distplusplus.Client.Proofs.Granting

namespace Distplusplus.Client.Send

open Lib Common

variable {cfg : Config} {s t : State} {e : Event}
variable {past : List (State × Event)} {server : Str} {rest : List Str}
variable {status : ReceivedStatus} {answer : ReservationAnswer} {k : Nat}

-- ================================================================ the loop

/-- In the loop over the servers, or given up in it. -/
def isSearching : Phase → Bool
  | .reserving _ _ | .roundOver | .gaveUp _ => true
  | .distributing _ _ | .done _ => false

theorem isSearching_nextServer (s : State) (rest : List Str) :
    isSearching (nextServer s rest).phase = true := by
  unfold nextServer
  split
  · rfl
  · split <;> rfl

/-- What leads out of the loop, and to what. -/
theorem step_searching (h : step cfg s e = some t) :
    isSearching t.phase = true ∨
      (∃ stub uuid, t.phase =
        .distributing stub (cfg.job.compileRequest uuid)) ∨
      ∃ status answer stub request, e = .distribute status answer ∧
        s.phase = .distributing stub request ∧
        t.phase = .done (distributed cfg.logsErrors status answer) := by
  cases e with
  | reserve status answer =>
      obtain ⟨server, rest, -, ⟨-, -, rfl⟩ | ⟨uuid, -, -, rfl⟩⟩ :=
        reserve_cases h
      · exact .inl rfl
      · unfold reserved
        split
        · exact .inr (.inl ⟨server, uuid, rfl⟩)
        · left
          split
          · exact isSearching_nextServer ..
          · split
            · exact isSearching_nextServer ..
            · split
              · split
                · rfl
                · exact isSearching_nextServer ..
              · exact isSearching_nextServer ..
  | clock late =>
      left
      simp only [step] at h
      split at h
      · split at h
        · cases h
          rfl
        · cases h
          exact isSearching_nextServer ..
      · cases h
  | distribute status answer =>
      simp only [step] at h
      split at h
      case h_1 stub request hphase =>
        cases h
        exact .inr (.inr ⟨status, answer, stub, request, rfl, hphase, rfl⟩)
      case h_2 => cases h

-- ======================================================= the specification

/-- Whom a step has asked for a reservation. -/
def asking (s : State) : Event → List Str
  | .reserve _ _ =>
      match s.phase with
      | .reserving server _ => [server]
      | _ => []
  | _ => []

/-- The servers asked in a run, the first one first. -/
def asked (past : List (State × Event)) : List Str :=
  (emitted asking past).reverse

/-- Is it the end of a round that another one follows? -/
def Event.again : Event → Bool
  | .clock late => !late
  | _ => false

/-- The rounds a run has behind it. -/
def rounds (past : List (State × Event)) : Nat :=
  past.countP fun p => p.2.again

/-- Has a server shown that it is up: with `OK`, or with
`RESOURCE_EXHAUSTED`? -/
def Event.up : Event → Bool
  | .reserve status _ => decide (status.code = 0 ∨ status.code = 8)
  | _ => false

/-- No server has. -/
def Down (past : List (State × Event)) : Prop :=
  ∀ p ∈ past, p.2.up = false

/-- Is a job sent? -/
def Event.sends : Event → Bool
  | .distribute _ _ => true
  | _ => false

/-- Why a run of `send` is given up, `k` servers into a round. -/
inductive Because (cfg : Config) (past : List (State × Event)) (k : Nat) :
    Thrown → Prop
  | unreachable : rounds past = 0 → k = cfg.servers.length → Down past →
      Because cfg past k .fallbackSignal
  | late {s : State} {before : List (State × Event)} :
      past = (s, .clock true) :: before → k = cfg.servers.length →
      ¬Down past → Because cfg past k .fallbackSignal
  | ungranted {s : State} {before : List (State × Event)}
      {status : ReceivedStatus} {answer : ReservationAnswer} :
      past = (s, .reserve status answer) :: before →
      answer.success = true → answer.uuid = none →
      Because cfg past k .fallbackSignal
  | unnamed {s : State} {before : List (State × Event)}
      {status : ReceivedStatus} {answer : ReservationAnswer}
      {e : Exception} :
      past = (s, .reserve status answer) :: before → status.code ≠ 0 →
      mapGRPCStatus status.code = .error e →
      Because cfg past k (.exception e)

/-- What the phase says about the run, `k` servers into a round. -/
def Place (cfg : Config) (past : List (State × Event)) (k : Nat)
    (s : State) : Prop :=
  match s.phase with
  | .reserving server rest =>
      cfg.servers.drop k = server :: rest ∧
        (s.allDown = true ↔ Down past) ∧ (Down past → rounds past = 0)
  | .roundOver =>
      k = cfg.servers.length ∧ s.allDown = false ∧ ¬Down past
  | .gaveUp thrown => Because cfg past k thrown
  | .distributing stub _ => (cfg.servers.take k).getLast? = some stub
  | .done _ => ∃ s stub request status answer before,
      past = (s, .distribute status answer) :: before ∧
        s.phase = .distributing stub request ∧
        (cfg.servers.take k).getLast? = some stub

/-- Is the run through? -/
def State.ended (s : State) : Bool :=
  match s.phase with
  | .gaveUp _ | .done _ => true
  | .reserving _ _ | .roundOver | .distributing _ _ => false

/-- Is the job sent and answered? -/
def State.answered (s : State) : Bool :=
  match s.phase with
  | .done _ => true
  | _ => false

/-- Some rounds, and `k` servers of the next. -/
def inRounds (servers : List Str) (rounds k : Nat) : List Str :=
  (List.replicate rounds servers).flatten ++ servers.take k

/-- A run of `send` that is `k` servers into a round. -/
structure Rounds (cfg : Config) (past : List (State × Event)) (s : State)
    (k : Nat) : Prop where
  bound : k ≤ cfg.servers.length
  asked : asked past = inRounds cfg.servers (rounds past) k
  place : Place cfg past k s
  sent : past.countP (·.2.sends) = s.answered.toNat
  length : past.length ≤
    (Send.asked past).length + rounds past + s.ended.toNat

-- ================================================================= pieces

theorem asked_cons (s : State) (e : Event) (past : List (State × Event)) :
    asked ((s, e) :: past) = asked past ++ asking s e := by
  rw [asked, emitted_cons, List.reverse_append, List.reverse_reverse]
  rfl

theorem down_cons : Down ((s, e) :: past) ↔ e.up = false ∧ Down past :=
  List.forall_mem_cons

theorem rounds_cons (s : State) (e : Event) (past : List (State × Event)) :
    rounds ((s, e) :: past) = rounds past + e.again.toNat := by
  rw [rounds, List.countP_cons]
  cases e.again <;> rfl

/-- On to what is left of a round. -/
theorem place_nextServer (hk : k ≤ cfg.servers.length)
    (hdrop : cfg.servers.drop k = rest)
    (hdown : s.allDown = true ↔ Down past)
    (hrounds : Down past → rounds past = 0) :
    Place cfg past k (nextServer s rest) := by
  cases rest with
  | cons server rest => exact ⟨hdrop, hdown, hrounds⟩
  | nil =>
      have hlen : k = cfg.servers.length := by
        have hle := List.drop_eq_nil_iff.mp hdrop
        omega
      unfold nextServer
      dsimp only
      split_ifs with hall
      · exact .unreachable (hrounds (hdown.mp hall)) hlen (hdown.mp hall)
      · exact ⟨hlen, by simpa using hall, fun hd => hall (hdown.mpr hd)⟩

theorem answered_nextServer (s : State) (rest : List Str) :
    (nextServer s rest).answered = false := by
  unfold nextServer
  cases rest with
  | cons server rest => rfl
  | nil => dsimp only; split_ifs <;> rfl

/-- What `send` makes of an answer that `reserve` lets through: the job is
sent, the run is given up, or it goes on. -/
theorem reserved_cases (cfg : Config) (status : ReceivedStatus)
    (server : Str) (rest : List Str) (s : State) :
    (∃ request, (reserved cfg status server rest s).phase =
        .distributing server request) ∨
      (∃ e, (reserved cfg status server rest s).phase =
          .gaveUp (.exception e) ∧ status.code ≠ 0 ∧
        mapGRPCStatus status.code = .error e) ∨
      ∃ u : State, status.code ≠ 0 ∧
        reserved cfg status server rest s = nextServer u rest ∧
        u.allDown = (s.allDown && decide (status.code ≠ 8)) := by
  unfold reserved
  split_ifs with hok hfull hdown hlogs
  · exact .inl ⟨_, rfl⟩
  · exact .inr (.inr ⟨_, hok, rfl, by simp [hfull]⟩)
  · exact .inr (.inr ⟨_, hok, rfl, by simp [hfull]⟩)
  · cases hname : mapGRPCStatus status.code with
    | error e => exact .inr (.inl ⟨e, rfl, hok, rfl⟩)
    | ok name => exact .inr (.inr ⟨_, hok, rfl, by simp [hfull]⟩)
  · exact .inr (.inr ⟨_, hok, rfl, by simp [hfull]⟩)

-- =================================================================== steps

/-- One more server asked. -/
theorem Rounds.reserve (h : Rounds cfg past s k)
    (hse : step cfg s (.reserve status answer) = some t) :
    Rounds cfg ((s, .reserve status answer) :: past) t (k + 1) := by
  obtain ⟨server, rest, hp, hcase⟩ := reserve_cases hse
  have hplace := h.place
  unfold Place at hplace
  rw [hp] at hplace
  obtain ⟨hdrop, hdown, hrounds⟩ := hplace
  have hk : k < cfg.servers.length := by
    have hlen := congrArg List.length hdrop
    rw [List.length_drop, List.length_cons] at hlen
    omega
  rw [List.drop_eq_getElem_cons hk] at hdrop
  obtain ⟨hget, hrest⟩ := List.cons.inj hdrop
  have htake : cfg.servers.take (k + 1) =
      cfg.servers.take k ++ [server] := by
    rw [List.take_succ_eq_append_getElem hk, hget]
  have hasked : Send.asked ((s, .reserve status answer) :: past) =
      Send.asked past ++ [server] := by
    rw [asked_cons, asking, hp]
  have hagain : rounds ((s, .reserve status answer) :: past) =
      rounds past := rounds_cons ..
  have hnew : Place cfg ((s, .reserve status answer) :: past) (k + 1) t ∧
      t.answered = false := by
    rcases hcase with ⟨hs, hu, rfl⟩ | ⟨uuid, -, -, rfl⟩
    · exact ⟨.ungranted rfl hs hu, rfl⟩
    · rcases reserved_cases cfg status server rest { s with uuid := uuid }
        with ⟨request, ht⟩ | ⟨e, ht, hok, he⟩ | ⟨u, hok, ht, hall⟩
      · rw [Place, State.answered, ht]
        dsimp only
        rw [htake]
        exact ⟨List.getLast?_concat, rfl⟩
      · rw [Place, State.answered, ht]
        exact ⟨.unnamed rfl hok he, rfl⟩
      · rw [ht]
        refine ⟨place_nextServer hk hrest ?_ ?_, answered_nextServer ..⟩
        · rw [down_cons, Event.up, hall]
          simp [hok, hdown, and_comm]
        · intro hd
          rw [hagain]
          exact hrounds (down_cons.mp hd).2
  refine ⟨hk, ?_, hnew.1, ?_, ?_⟩
  · rw [hasked, hagain, h.asked, inRounds, inRounds, htake,
      List.append_assoc]
  · have hsent := h.sent
    rw [State.answered, hp] at hsent
    rw [List.countP_cons, hnew.2]
    exact hsent
  · have hlen := h.length
    rw [State.ended, hp] at hlen
    rw [hasked, hagain, List.length_append]
    simp only [List.length_cons, List.length_nil, Bool.toNat_false] at *
    omega

/-- One look at the clock. -/
theorem Rounds.clock {late : Bool} (h : Rounds cfg past s k)
    (hse : step cfg s (.clock late) = some t) :
    ∃ k, Rounds cfg ((s, .clock late) :: past) t k := by
  have hp : s.phase = .roundOver := by
    simp only [step] at hse
    split at hse
    · assumption
    · cases hse
  have hplace := h.place
  unfold Place at hplace
  rw [hp] at hplace
  obtain ⟨hk, hdown, hup⟩ := hplace
  have hasked : Send.asked ((s, .clock late) :: past) = Send.asked past :=
    (asked_cons ..).trans (List.append_nil _)
  have hsent := h.sent
  rw [State.answered, hp] at hsent
  have hlen := h.length
  rw [State.ended, hp] at hlen
  have hup' : ¬Down ((s, .clock late) :: past) := fun hd =>
    hup (down_cons.mp hd).2
  simp only [step, hp] at hse
  cases late with
  | true =>
      cases hse
      have hagain : rounds ((s, .clock true) :: past) = rounds past :=
        rounds_cons ..
      refine ⟨k, h.bound, ?_, .late rfl hk hup', hsent, ?_⟩
      · rw [hasked, hagain, h.asked]
      · rw [hasked, hagain, State.ended]
        simp only [List.length_cons, Bool.toNat_false, Bool.toNat_true] at *
        omega
  | false =>
      cases hse
      have hagain : rounds ((s, .clock false) :: past) = rounds past + 1 :=
        rounds_cons ..
      -- a whole round is behind, and none of the next
      refine ⟨0, Nat.zero_le _, ?_, ?_, ?_, ?_⟩
      · rw [hasked, hagain, h.asked, hk, inRounds, inRounds,
          List.take_length, List.replicate_succ', List.flatten_append,
          List.take_zero, List.append_nil, List.flatten_singleton]
      · refine place_nextServer (Nat.zero_le _) (List.drop_zero ..) ?_ ?_
        · simp [hdown, hup']
        · exact fun hd => absurd hd hup'
      · rw [answered_nextServer]
        exact hsent
      · rw [hasked, hagain]
        simp only [List.length_cons, Bool.toNat_false] at *
        omega

/-- The job is answered. -/
theorem Rounds.distribute {compileAnswer : CompileAnswer}
    (h : Rounds cfg past s k)
    (hse : step cfg s (.distribute status compileAnswer) = some t) :
    Rounds cfg ((s, .distribute status compileAnswer) :: past) t k := by
  obtain ⟨stub, request, hp⟩ : ∃ stub request,
      s.phase = .distributing stub request := by
    simp only [step] at hse
    split at hse
    · exact ⟨_, _, ‹_›⟩
    · cases hse
  have hplace := h.place
  unfold Place at hplace
  rw [hp] at hplace
  have hasked : Send.asked ((s, .distribute status compileAnswer) :: past) =
      Send.asked past :=
    (asked_cons ..).trans (List.append_nil _)
  have hagain : rounds ((s, .distribute status compileAnswer) :: past) =
      rounds past := rounds_cons ..
  have hsent := h.sent
  rw [State.answered, hp] at hsent
  have hlen := h.length
  rw [State.ended, hp] at hlen
  simp only [step, hp] at hse
  cases hse
  refine ⟨h.bound, ?_, ⟨s, stub, request, _, _, _, rfl, hp, hplace⟩, ?_, ?_⟩
  · rw [hasked, hagain, h.asked]
  · rw [List.countP_cons, hsent]
    rfl
  · rw [hasked, hagain, State.ended]
    simp only [List.length_cons, Bool.toNat_false, Bool.toNat_true] at *
    omega

-- ==================================================================== runs

/-- Every run of `send` is some servers into a round. -/
theorem Rounds.of_traces {Q : List (State × Event) → State → Event → Prop}
    (h : Traces (step cfg) Q (start cfg) past s) :
    ∃ k, Rounds cfg past s k := by
  refine h.invariant (P := fun past s => ∃ k, Rounds cfg past s k) ?_ ?_
  · refine ⟨0, Nat.zero_le _, rfl, ?_, ?_, Nat.zero_le _⟩
    · refine place_nextServer (Nat.zero_le _) (List.drop_zero ..) ?_ ?_
      · simp [Down]
      · exact fun _ => rfl
    · rw [start, answered_nextServer]
      rfl
  · intro past s e t hex _ hse
    obtain ⟨k, hk⟩ := hex
    cases e with
    | reserve status answer => exact ⟨k + 1, hk.reserve hse⟩
    | clock late => exact hk.clock hse
    | distribute status compileAnswer => exact ⟨k, hk.distribute hse⟩

/-- `send` asks its servers in their order, round by round: after some
rounds it is some servers into the next. It is given up for no other reason
than those of `Because`, it sends the job once at most, to the server asked
last, and then it is over; and the rounds bound its calls. -/
theorem asked_in_rounds
    {Q : List (State × Event) → State → Event → Prop}
    (h : Traces (step cfg) Q (start cfg) past s) :
    ∃ k, Rounds cfg past s k ∧
      past.length ≤ (rounds past + 1) * (cfg.servers.length + 1) := by
  obtain ⟨k, hk⟩ := Rounds.of_traces h
  refine ⟨k, hk, ?_⟩
  have hlen := hk.length
  have hbound := hk.bound
  rw [hk.asked, inRounds, List.length_append, List.length_flatten,
    List.map_replicate, List.sum_replicate_nat, List.length_take,
    Nat.min_eq_left hbound] at hlen
  have hended : s.ended.toNat ≤ 1 := Bool.toNat_le _
  rw [Nat.add_mul, Nat.mul_add]
  omega

/-- A full server, one that is down, another round, and the job. -/
theorem asked_in_rounds_again :
    ∃ past s k, Traces (step twoServers) (fun _ _ _ => True)
        (start twoServers) past s ∧
      asked past = table ["a", "b", "a"] ∧ rounds past = 1 ∧
      Rounds twoServers past s k ∧ past.length ≤ 6 := by
  have h : Traces (step twoServers) (fun _ _ _ => True)
      (start twoServers) _ _ :=
    .step (.distribute ⟨0, [], []⟩ ⟨0, [], [], none⟩)
      (.step (.reserve ⟨0, [], []⟩ ⟨true, some "u".toList⟩)
        (.step (.clock false)
          (.step (.reserve ⟨14, [], []⟩ ⟨false, none⟩)
            (.step (.reserve ⟨8, [], []⟩ ⟨false, none⟩) .start trivial rfl)
            trivial rfl) trivial rfl) trivial rfl) trivial rfl
  obtain ⟨k, hk, hlen⟩ := asked_in_rounds h
  exact ⟨_, _, k, h, by decide, by decide, hk, hlen⟩

end Distplusplus.Client.Send
