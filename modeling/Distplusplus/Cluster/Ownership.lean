/-
Which calls are whose.

`Owned` is the invariant the results about clients and servers together
rest on. A client makes its calls one at a time, and the one `Distribute`
call of its life comes after a `Reserve` call of its own to the same server
was answered with the uuid that it presents.

`step_effect` says what an event can be: a client starts, a client makes a
call, a client is told something, a server goes on by itself. The last two
make no call, and go through `Owned.frame`: the calls before are the calls
after (`Extends`, `Retracts`).
-/
import Distplusplus.Client.Proofs.Rounds
import Distplusplus.Client.Proofs.Survivable
import Distplusplus.Cluster.Network
import Distplusplus.Server.Proofs.Calls

namespace Distplusplus.Cluster

open Lib Common Client
open Server (Continues)

variable {cfg : Str → Server.Config} {s t : State} {e : Event}
variable {i j k : Nat} {a b uuid : Str} {c c' : Sender}
variable {call call' : Server.Call} {clock : Str → Int}
variable {host : Server.Host} {request : CompileRequest}
variable {phase : Server.Phase}

-- =================================================================== effects

/-- The call that client `c` makes, and to whom. -/
inductive Makes (c : Sender) (host : Server.Host) :
    Str → Server.Event → Server.Call → Prop
  | reserve {a : Str} {rest : List Str} (h : c.send.phase = .reserving a rest) :
      Makes c host a .reserve (.reserve .check)
  | distribute {a : Str} {request : CompileRequest}
      (h : c.send.phase = .distributing a request) :
      Makes c host a (.distribute host request)
        (.distribute host request .lookup)

/-- What client `c` is told. -/
inductive Tells (s : State) (c : Sender) : Event → Send.Event → Prop
  | answer (i : Nat) {k : Nat} {a : Str} {call : Server.Call}
      {event : Send.Event} (waits : c.call = some k)
      (calls : peer c.send.phase = some a)
      (cell : (s.servers a).calls[k]? = some call)
      (h : answered call = some event) : Tells s c (.answer i) event
  | failReserve (i : Nat) {status : ReceivedStatus}
      (failed : isFailure status = true) :
      Tells s c (.fail i status) (.reserve status ⟨false, none⟩)
  | failDistribute (i : Nat) {status : ReceivedStatus}
      (failed : isFailure status = true) :
      Tells s c (.fail i status) (.distribute status noAnswer)
  | clock (i : Nat) (late : Bool) : Tells s c (.clock i late) (.clock late)

/-- A step of the cluster. -/
inductive Effect (cfg : Str → Server.Config) (s : State) :
    Event → State → Prop
  | client (clientCfg : Send.Config) :
      Effect cfg s (.client clientCfg) { s with
        clients := s.clients ++ [⟨clientCfg, Send.start clientCfg, none⟩] }
  | call {i : Nat} {c : Sender} {host : Server.Host} {a : Str}
      {event : Server.Event} {call : Server.Call} {u : Server.State}
      (who : s.clients[i]? = some c) (idle : c.call = none)
      (makes : Makes c host a event call)
      (h : Server.step (cfg a) (s.servers a) event = some u) :
      Effect cfg s (.call i host)
        { servers := Function.update s.servers a u
          owners := Function.update s.owners a (s.owners a ++ [i])
          clients := s.clients.set i
            { c with call := some (s.servers a).calls.length } }
  | told {i : Nat} {c : Sender} {e : Event} {event : Send.Event}
      {send : Send.State} (who : s.clients[i]? = some c)
      (tells : Tells s c e event)
      (h : Send.step c.cfg c.send event = some send) :
      Effect cfg s e { s with clients := s.clients.set i ⟨c.cfg, send, none⟩ }
  | server {a : Str} {event : Server.Event} {u : Server.State}
      (internal : isInternal event = true)
      (h : Server.step (cfg a) (s.servers a) event = some u) :
      Effect cfg s (.server a event)
        { s with servers := Function.update s.servers a u }

/-- Every step of the cluster is one of these. -/
theorem step_effect (h : step cfg s e = some t) : Effect cfg s e t := by
  have told : ∀ {i c event}, s.clients[i]? = some c →
      Tells s c e event → deliver s i c event = some t →
      Effect cfg s e t := by
    intro i c event who tells hd
    obtain ⟨send, hsend, rfl⟩ := Option.map_eq_some_iff.mp hd
    exact .told who tells hsend
  cases e with
  | client clientCfg =>
      cases h
      exact .client clientCfg
  | clock i late =>
      obtain ⟨c, who, hd⟩ := Option.bind_eq_some_iff.mp h
      exact told who (.clock i late) hd
  | server a event =>
      simp only [step] at h
      split at h
      case isFalse => cases h
      case isTrue internal =>
        obtain ⟨u, hu, rfl⟩ := Option.map_eq_some_iff.mp h
        exact .server internal hu
  | call i host =>
      obtain ⟨c, who, hcall⟩ := Option.bind_eq_some_iff.mp h
      simp only [callStep] at hcall
      split at hcall
      case h_1 idle hphase =>
        obtain ⟨u, hu, rfl⟩ := Option.map_eq_some_iff.mp hcall
        exact .call who idle (.reserve hphase) hu
      case h_2 idle hphase =>
        obtain ⟨u, hu, rfl⟩ := Option.map_eq_some_iff.mp hcall
        exact .call who idle (.distribute hphase) hu
      case h_3 => cases hcall
  | answer i =>
      obtain ⟨c, who, hanswer⟩ := Option.bind_eq_some_iff.mp h
      obtain ⟨k, waits, hanswer⟩ := Option.bind_eq_some_iff.mp hanswer
      obtain ⟨a, calls, hanswer⟩ := Option.bind_eq_some_iff.mp hanswer
      obtain ⟨call, cell, hanswer⟩ := Option.bind_eq_some_iff.mp hanswer
      obtain ⟨event, hevent, hd⟩ := Option.bind_eq_some_iff.mp hanswer
      exact told who (.answer i waits calls cell hevent) hd
  | fail i status =>
      simp only [step] at h
      split at h
      case isFalse => cases h
      case isTrue failed =>
        obtain ⟨c, who, hfail⟩ := Option.bind_eq_some_iff.mp h
        simp only [failStep] at hfail
        split at hfail
        · exact told who (.failReserve i failed) hfail
        · exact told who (.failDistribute i failed) hfail
        · cases hfail

/-- Every server of the cluster is a server of its own. -/
theorem server_reaches
    (h : Reaches (step cfg) (fun s e => fresh s e = true) (.start clock) s)
    (a : Str) :
    Reaches (Server.step (cfg a)) (fun s e => Server.fresh s e = true)
      (.start (clock a)) (s.servers a) := by
  refine h.project (fun s => s.servers a) ?_
  intro s e t hq hse
  have moved : ∀ {b u event}, Server.fresh (s.servers b) event = true →
      Server.step (cfg b) (s.servers b) event = some u →
      t.servers = Function.update s.servers b u →
      t.servers a = s.servers a ∨ ∃ event,
        Server.fresh (s.servers a) event = true ∧
          Server.step (cfg a) (s.servers a) event = some (t.servers a) := by
    intro b u event hf hstep ht
    by_cases hab : a = b
    · subst hab
      rw [ht, Function.update_self]
      exact .inr ⟨event, hf, hstep⟩
    · rw [ht, Function.update_of_ne hab]
      exact .inl rfl
  cases step_effect hse with
  | client => exact .inl rfl
  | told => exact .inl rfl
  | server internal hu => exact moved hq hu rfl
  | call who idle makes hu =>
      exact moved (by cases makes <;> rfl) hu rfl

-- ================================================================= ownership

/-- Call `k` of server `a` is there, and client `i` made it. -/
def Owns (s : State) (i : Nat) (a : Str) (k : Nat) (call : Server.Call) :
    Prop :=
  (s.owners a)[k]? = some i ∧ (s.servers a).calls[k]? = some call

/-- Server `a` has answered a `Reserve` call of client `i` with a uuid. -/
def Granted (s : State) (i : Nat) (a uuid : Str) : Prop :=
  ∃ k status, Owns s i a k (.reserve (.returned status ⟨true, some uuid⟩))

/-- The calls of a client's own that a client in this state rests on. -/
def Sound (s : State) (i : Nat) (c : Sender) : Prop :=
  match c.send.phase with
  | .reserving a _ => ∀ k, c.call = some k →
      ∃ phase, Owns s i a k (.reserve phase)
  | .distributing a request =>
      request = c.cfg.job.compileRequest request.uuid ∧
      Granted s i a request.uuid ∧
      ∀ k, c.call = some k →
        ∃ host phase, Owns s i a k (.distribute host request phase)
  | .done (.ok answer) => ∃ a k host request status,
      Owns s i a k (.distribute host request
        (.returned status (some answer))) ∧ status.code = .OK
  | .gaveUp thrown | .done (.error thrown) => thrown = .fallbackSignal
  | .roundOver => True

/-- The one call that can have carried the client's job. -/
def MaySend (c : Sender) (a : Str) (k : Nat) : Prop :=
  match c.send.phase with
  | .distributing stub _ => stub = a ∧ c.call = some k
  | .done _ => True
  | .reserving _ _ | .roundOver | .gaveUp _ => False

/-- What clients, servers and owners know of each other. -/
structure Owned (s : State) : Prop where
  lengths : ∀ a, (s.owners a).length = (s.servers a).calls.length
  sound : ∀ (i : Nat) (c : Sender), s.clients[i]? = some c → Sound s i c
  jobs : ∀ i a k host request phase,
    Owns s i a k (.distribute host request phase) →
    ∃ c, s.clients[i]? = some c ∧
      request = c.cfg.job.compileRequest request.uuid ∧
      Granted s i a request.uuid ∧ MaySend c a k
  once : ∀ i a k host request phase b j host' request' phase',
    Owns s i a k (.distribute host request phase) →
    Owns s i b j (.distribute host' request' phase') → a = b ∧ k = j

theorem Owned.start (clock : Str → Int) : Owned (.start clock) where
  lengths := fun _ => rfl
  sound := fun _ _ h => by cases h
  jobs := fun _ _ _ _ _ _ h => by cases h.1
  once := fun _ _ _ _ _ _ _ _ _ _ _ h => by cases h.1

-- ==================================================================== frames

/-- The calls of one state go on in another. -/
def Extends (s t : State) : Prop :=
  ∀ i a k call, Owns s i a k call →
    ∃ call', Owns t i a k call' ∧ Continues call call'

/-- And there are no others. -/
def Retracts (s t : State) : Prop :=
  ∀ i a k call', Owns t i a k call' →
    ∃ call, Owns s i a k call ∧ Continues call call'

theorem Extends.granted (h : Extends s t) (hg : Granted s i a uuid) :
    Granted t i a uuid := by
  obtain ⟨k, status, howns⟩ := hg
  obtain ⟨call', howns', hcont⟩ := h _ _ _ _ howns
  cases hcont with
  | same => exact ⟨k, status, howns'⟩
  | reserve phase' hno => exact absurd rfl (hno _ _)

theorem Extends.reserve {p : Server.ReservePhase} (h : Extends s t)
    (howns : Owns s i a k (.reserve p)) :
    ∃ p', Owns t i a k (.reserve p') := by
  obtain ⟨call', howns', hcont⟩ := h _ _ _ _ howns
  cases hcont with
  | same => exact ⟨_, howns'⟩
  | reserve p' => exact ⟨p', howns'⟩

theorem Extends.distribute (h : Extends s t)
    (howns : Owns s i a k (.distribute host request phase)) :
    ∃ phase', Owns t i a k (.distribute host request phase') := by
  obtain ⟨call', howns', hcont⟩ := h _ _ _ _ howns
  cases hcont with
  | same => exact ⟨_, howns'⟩
  | distribute _ _ phase' => exact ⟨phase', howns'⟩

theorem Extends.returned {status : Status} {answer : Option CompileAnswer}
    (h : Extends s t)
    (howns : Owns s i a k (.distribute host request
      (.returned status answer))) :
    Owns t i a k (.distribute host request (.returned status answer)) := by
  obtain ⟨call', howns', hcont⟩ := h _ _ _ _ howns
  cases hcont with
  | same => exact howns'
  | distribute _ _ phase' hno => exact absurd rfl (hno _ _)

/-- What a client rests on stays. -/
theorem Extends.sound (h : Extends s t) (hs : Sound s i c) :
    Sound t i c := by
  unfold Sound at hs ⊢
  cases hp : c.send.phase with
  | reserving a rest =>
      rw [hp] at hs
      intro k hk
      obtain ⟨p, howns⟩ := hs k hk
      exact h.reserve howns
  | distributing a request =>
      rw [hp] at hs
      obtain ⟨hjob, hg, hcall⟩ := hs
      refine ⟨hjob, h.granted hg, fun k hk => ?_⟩
      obtain ⟨host, phase, howns⟩ := hcall k hk
      exact ⟨host, h.distribute howns⟩
  | done result =>
      rw [hp] at hs
      cases result with
      | ok answer =>
          obtain ⟨a, k, host, request, status, howns, hok⟩ := hs
          exact ⟨a, k, host, request, status, h.returned howns, hok⟩
      | error thrown => exact hs
  | gaveUp thrown =>
      rw [hp] at hs
      exact hs
  | roundOver => trivial

theorem Retracts.distribute (h : Retracts s t)
    (howns : Owns t i a k (.distribute host request phase)) :
    ∃ phase', Owns s i a k (.distribute host request phase') := by
  obtain ⟨call, howns', hcont⟩ := h _ _ _ _ howns
  cases hcont with
  | same => exact ⟨_, howns'⟩
  | distribute => exact ⟨_, howns'⟩

/-- An event that makes no call. -/
theorem Owned.frame (h : Owned s) (hext : Extends s t)
    (hret : Retracts s t)
    (hlen : ∀ a, (t.owners a).length = (t.servers a).calls.length)
    (hsound : ∀ (i : Nat) (c : Sender), t.clients[i]? = some c →
      Sound t i c)
    (hsend : ∀ (i : Nat) (c : Sender), s.clients[i]? = some c → ∃ c',
      t.clients[i]? = some c' ∧ c'.cfg = c.cfg ∧
      ∀ a k, MaySend c a k → MaySend c' a k) : Owned t where
  lengths := hlen
  sound := hsound
  jobs := by
    intro i a k host request phase howns
    obtain ⟨phase', howns'⟩ := hret.distribute howns
    obtain ⟨c, who, hjob, hg, hmay⟩ := h.jobs _ _ _ _ _ _ howns'
    obtain ⟨c', who', hcfg, hkeep⟩ := hsend i c who
    exact ⟨c', who', hcfg ▸ hjob, hext.granted hg, hkeep a k hmay⟩
  once := by
    intro i a k host request phase b j host' request' phase' h₁ h₂
    obtain ⟨p₁, h₁⟩ := hret.distribute h₁
    obtain ⟨p₂, h₂⟩ := hret.distribute h₂
    exact h.once _ _ _ _ _ _ _ _ _ _ _ h₁ h₂

-- ============================================================ what is told

/-- The job that is sent is the client's own. -/
theorem compileRequest_of_step {sc : Send.Config} {ss st : Send.State}
    {event : Send.Event} (h : Send.step sc ss event = some st)
    (hp : st.phase = .distributing a request) :
    request = sc.job.compileRequest request.uuid := by
  rcases Send.step_searching h with hs | ⟨stub, uuid, heq⟩ |
    ⟨_, _, _, _, -, -, heq⟩
  · rw [hp] at hs
    cases hs
  · rw [hp] at heq
    cases heq
    rfl
  · rw [hp] at heq
    cases heq

/-- A server's answer to `Reserve`, and what gRPC says in its place, is
honest. -/
theorem Tells.honest {event : Send.Event} (h : Tells s c e event)
    (hknown : ∀ (a : Str) (k : Nat) (call : Server.Call),
      (s.servers a).calls[k]? = some call →
      Server.Known (s.servers a).log call)
    (sc : Send.Config) : Send.Honest sc event := by
  cases h with
  | clock => trivial
  | failDistribute => trivial
  | failReserve i failed =>
      obtain ⟨hne, hnamed⟩ := Bool.and_eq_true_iff.mp failed
      exact ⟨fun hzero => absurd hzero (of_decide_eq_true hne),
        .inr fun _ => of_decide_eq_true hnamed⟩
  | answer i waits calls cell hanswered =>
      rename_i k a call
      have hk := hknown a k call cell
      unfold answered at hanswered
      split at hanswered
      · cases hanswered
        refine ⟨fun hzero => ?_, .inr fun _ => StatusCode.listed _⟩
        rcases hk with ⟨hfull, -⟩ | ⟨-, uuid, rfl, -⟩
        · rw [received, StatusCode.number_eq_zero, hfull] at hzero
          cases hzero
        · rfl
      · cases hanswered
        trivial
      · cases hanswered

/-- A grant that reaches a client is one of its own call. -/
theorem Tells.granted {status : ReceivedStatus}
    {answer : ReservationAnswer} (h : Tells s c e (.reserve status answer))
    (hknown : ∀ (a : Str) (k : Nat) (call : Server.Call),
      (s.servers a).calls[k]? = some call →
      Server.Known (s.servers a).log call)
    (hsound : Sound s i c) {rest : List Str}
    (hp : c.send.phase = .reserving a rest) (hs : answer.success = true)
    (hu : answer.uuid = some uuid) : Granted s i a uuid := by
  cases h with
  | failReserve => cases hs
  | answer _ waits calls cell hanswered =>
      rename_i k a' call
      rw [hp] at calls
      cases calls
      unfold Sound at hsound
      rw [hp] at hsound
      obtain ⟨p, hown, hcell⟩ := hsound k waits
      obtain rfl := Option.some.inj (cell.symm.trans hcell)
      unfold answered at hanswered
      split at hanswered
      · cases hanswered
        rename_i status' heq
        cases heq
        rcases hknown a k _ cell with ⟨-, rfl⟩ | ⟨-, uuid', rfl, -⟩
        · cases hs
        · cases hu
          exact ⟨k, status', hown, hcell⟩
      · rename_i heq
        cases heq
      · cases hanswered

/-- An `OK` from `Distribute` that reaches a client comes with the answer of
its own call. -/
theorem Tells.returned {received : ReceivedStatus} {answer : CompileAnswer}
    (h : Tells s c e (.distribute received answer))
    (hreach : ∀ a, Reaches (Server.step (cfg a))
      (fun s e => Server.fresh s e = true) (.start (clock a)) (s.servers a))
    (hsound : Sound s i c) (hp : c.send.phase = .distributing a request)
    (hok : received.code = 0) :
    ∃ k host status, Owns s i a k (.distribute host request
      (.returned status (some answer))) ∧ status.code = .OK := by
  cases h with
  | failDistribute _ failed =>
      obtain ⟨hne, -⟩ := Bool.and_eq_true_iff.mp failed
      exact absurd hok (of_decide_eq_true hne)
  | answer _ waits calls cell hanswered =>
      rename_i k a' call
      rw [hp] at calls
      cases calls
      unfold Sound at hsound
      rw [hp] at hsound
      obtain ⟨host, p, hown, hcell⟩ := hsound.2.2 k waits
      obtain rfl := Option.some.inj (cell.symm.trans hcell)
      unfold answered at hanswered
      split at hanswered
      · rename_i heq
        cases heq
      · rename_i status answer' heq
        cases heq
        cases hanswered
        have hcode := StatusCode.number_eq_zero.mp hok
        obtain ⟨answer, rfl, -⟩ :=
          Server.produced_of_ok (hreach a) cell hcode
        exact ⟨k, host, status, ⟨hown, hcell⟩, hcode⟩
      · cases hanswered

/-- The status a client is told has a name. -/
theorem Tells.named {status : ReceivedStatus} {answer : CompileAnswer}
    (h : Tells s c e (.distribute status answer)) :
    Listed status.code := by
  cases h with
  | failDistribute _ failed =>
      exact of_decide_eq_true (Bool.and_eq_true_iff.mp failed).2
  | answer _ _ _ _ hanswered =>
      unfold answered at hanswered
      split at hanswered
      · cases hanswered
      · cases hanswered
        exact StatusCode.listed _
      · cases hanswered

/-- What a client is told leaves it with what it rests on. -/
theorem Tells.sound {event : Send.Event} {send : Send.State}
    (h : Tells s c e event) (hstep : Send.step c.cfg c.send event = some send)
    (hreach : ∀ a, Reaches (Server.step (cfg a))
      (fun s e => Server.fresh s e = true) (.start (clock a)) (s.servers a))
    (hsound : Sound s i c) : Sound s i ⟨c.cfg, send, none⟩ := by
  have hknown := fun (a : Str) => Server.Known.of_reaches (hreach a)
  have hproper := Send.proper_of_honest (h.honest hknown c.cfg) hstep []
  unfold Send.Proper at hproper
  unfold Sound
  dsimp only
  cases hp : send.phase with
  | reserving => exact nofun
  | roundOver => trivial
  | gaveUp thrown =>
      rw [hp] at hproper
      exact hproper
  | distributing a request =>
      rw [hp] at hproper
      obtain ⟨_, rest, status, answer, _, hpast, hphase, hs, hu⟩ := hproper
      cases hpast
      exact ⟨compileRequest_of_step hstep hp,
        h.granted hknown hsound hphase hs hu, nofun⟩
  | done result =>
      rcases Send.step_searching hstep with hs | ⟨stub, uuid, heq⟩ |
        ⟨status, answer, stub, request, rfl, hphase, heq⟩
      · rw [hp] at hs
        cases hs
      · rw [hp] at heq
        cases heq
      · rw [hp] at heq
        cases heq
        by_cases hok : status.code = 0
        · obtain ⟨k, host, st, howns, hcode⟩ :=
            h.returned hreach hsound hphase hok
          rw [distributed, if_pos hok]
          exact ⟨stub, k, host, request, st, howns, hcode⟩
        · have hnamed := h.named
          rcases distributed_failed hok with
            ⟨heq, -⟩ | ⟨-, hno⟩
          · rw [heq]
          · exact absurd (fun _ => hnamed) hno

/-- And who has sent a job has no more to send. -/
theorem maySend_of_step {event : Send.Event} {send : Send.State}
    (hstep : Send.step c.cfg c.send event = some send)
    (h : MaySend c a k) : MaySend ⟨c.cfg, send, none⟩ a k := by
  unfold MaySend at h
  cases hp : c.send.phase with
  | distributing stub request =>
      cases event with
      | distribute status answer =>
          simp only [Send.step, hp] at hstep
          cases hstep
          trivial
      | _ =>
          simp only [Send.step, hp] at hstep
          cases hstep
  | done result =>
      cases event with
      | _ =>
          simp only [Send.step, hp] at hstep
          cases hstep
  | _ =>
      rw [hp] at h
      exact h.elim

-- ============================================================== preservation

/-- Moving a client leaves the calls alone. -/
theorem extends_clients (s : State) (clients : List Sender) :
    Extends s { s with clients := clients } :=
  fun _ _ _ call howns => ⟨call, howns, .same call⟩

theorem retracts_clients (s : State) (clients : List Sender) :
    Retracts s { s with clients := clients } :=
  fun _ _ _ call howns => ⟨call, howns, .same call⟩

/-- The rule for one cell of the clients. -/
theorem clients_set (who : s.clients[i]? = some c)
    {P : Nat → Sender → Prop}
    (hold : ∀ (j : Nat) (d : Sender), s.clients[j]? = some d → P j d)
    (hnew : P i c') (j : Nat) (d : Sender)
    (hj : (s.clients.set i c')[j]? = some d) : P j d := by
  rcases getElem?_set_cases who hj with ⟨rfl, rfl⟩ | ⟨-, hj⟩
  · exact hnew
  · exact hold j d hj

/-- A client is told something. -/
theorem Owned.told {event : Send.Event} {send : Send.State} (h : Owned s)
    (hreach : ∀ a, Reaches (Server.step (cfg a))
      (fun s e => Server.fresh s e = true) (.start (clock a)) (s.servers a))
    (who : s.clients[i]? = some c) (tells : Tells s c e event)
    (hstep : Send.step c.cfg c.send event = some send) :
    Owned { s with clients := s.clients.set i ⟨c.cfg, send, none⟩ } := by
  have hsound : Sound s i ⟨c.cfg, send, none⟩ :=
    tells.sound hstep hreach (h.sound i c who)
  refine h.frame (extends_clients _ _) (retracts_clients _ _) h.lengths ?_ ?_
  · exact clients_set who (P := fun j d => Sound s j d) h.sound hsound
  · intro j d hj
    by_cases hij : i = j
    · subst hij
      obtain rfl := Option.some.inj (who.symm.trans hj)
      obtain ⟨hi, -⟩ := List.getElem?_eq_some_iff.mp who
      exact ⟨_, List.getElem?_set_self hi, rfl,
        fun _ _ hmay => maySend_of_step hstep hmay⟩
    · exact ⟨d, (List.getElem?_set_ne hij).trans hj, rfl, fun _ _ hm => hm⟩

/-- A client in the loop that waits for nothing rests on nothing. -/
theorem sound_of_searching {sc : Send.Config} {send : Send.State}
    (hs : Send.isSearching send.phase = true) (hproper : Send.Proper [] send) :
    Sound s i ⟨sc, send, none⟩ := by
  unfold Send.Proper at hproper
  unfold Sound
  dsimp only
  cases hp : send.phase with
  | reserving => exact nofun
  | roundOver => trivial
  | gaveUp thrown =>
      rw [hp] at hproper
      exact hproper
  | distributing =>
      rw [hp] at hs
      cases hs
  | done =>
      rw [hp] at hs
      cases hs

/-- A client starts. -/
theorem Owned.client (h : Owned s) (clientCfg : Send.Config) :
    Owned { s with clients :=
      s.clients ++ [⟨clientCfg, Send.start clientCfg, none⟩] } := by
  refine h.frame (extends_clients _ _) (retracts_clients _ _) h.lengths ?_ ?_
  · intro i c hi
    rcases getElem?_append_one_cases hi with ⟨-, rfl⟩ | hi
    · exact sound_of_searching (Send.isSearching_nextServer ..)
        (Send.proper_nextServer [] ..)
    · exact h.sound i c hi
  · intro i c hi
    obtain ⟨hlt, -⟩ := List.getElem?_eq_some_iff.mp hi
    exact ⟨c, (List.getElem?_append_left hlt).trans hi, rfl,
      fun _ _ hm => hm⟩

/-- The calls of a server go on. -/
theorem extends_server {u : Server.State}
    (hcont : ∀ (k : Nat) (call : Server.Call),
      (s.servers a).calls[k]? = some call →
      ∃ call', u.calls[k]? = some call' ∧ Continues call call') :
    Extends s { s with servers := Function.update s.servers a u } := by
  intro i b k call howns
  obtain ⟨hown, cell⟩ := howns
  by_cases hab : b = a
  · subst hab
    obtain ⟨call', cell', hc⟩ := hcont k call cell
    refine ⟨call', ⟨hown, ?_⟩, hc⟩
    dsimp only
    rwa [Function.update_self]
  · refine ⟨call, ⟨hown, ?_⟩, .same call⟩
    dsimp only
    rwa [Function.update_of_ne hab]

/-- If no call comes, the calls after are the calls before. -/
theorem retracts_server {u : Server.State}
    (hlen : u.calls.length = (s.servers a).calls.length)
    (hcont : ∀ (k : Nat) (call : Server.Call),
      (s.servers a).calls[k]? = some call →
      ∃ call', u.calls[k]? = some call' ∧ Continues call call') :
    Retracts s { s with servers := Function.update s.servers a u } := by
  intro i b k call' howns
  obtain ⟨hown, cell'⟩ := howns
  by_cases hab : b = a
  · subst hab
    dsimp only at cell'
    rw [Function.update_self] at cell'
    obtain ⟨hk, -⟩ := List.getElem?_eq_some_iff.mp cell'
    have cell := List.getElem?_eq_getElem (hlen ▸ hk)
    obtain ⟨call'', hcell, hc⟩ := hcont k _ cell
    obtain rfl := Option.some.inj (hcell.symm.trans cell')
    exact ⟨_, ⟨hown, cell⟩, hc⟩
  · dsimp only at cell'
    rw [Function.update_of_ne hab] at cell'
    exact ⟨call', ⟨hown, cell'⟩, .same call'⟩

/-- A server goes on by itself. -/
theorem Owned.server {event : Server.Event} {u : Server.State}
    (h : Owned s) (internal : isInternal event = true)
    (hstep : Server.step (cfg a) (s.servers a) event = some u) :
    Owned { s with servers := Function.update s.servers a u } := by
  have hcont := Server.step_continues hstep
  have hlen : u.calls.length = (s.servers a).calls.length :=
    Server.step_calls_length hstep fun call ha => by
      cases ha <;> cases internal
  have hext := extends_server (s := s) hcont
  refine h.frame hext (retracts_server hlen hcont) ?_
    (fun i c who => hext.sound (h.sound i c who))
    fun i c who => ⟨c, who, rfl, fun _ _ hm => hm⟩
  intro b
  dsimp only
  by_cases hab : b = a
  · subst hab
    rw [Function.update_self, hlen]
    exact h.lengths b
  · rw [Function.update_of_ne hab]
    exact h.lengths b

section

variable {event : Server.Event} {u : Server.State}

/-- After client `i` called server `a`. -/
def afterCall (s : State) (i : Nat) (c : Sender) (a : Str)
    (u : Server.State) : State where
  servers := Function.update s.servers a u
  owners := Function.update s.owners a (s.owners a ++ [i])
  clients := s.clients.set i
    { c with call := some (s.servers a).calls.length }

/-- The calls before are still there. -/
theorem owns_afterCall (hu : u.calls = (s.servers a).calls ++ [call'])
    (howns : Owns s j b k call) : Owns (afterCall s i c a u) j b k call := by
  obtain ⟨hown, cell⟩ := howns
  unfold Owns afterCall
  dsimp only
  by_cases hab : b = a
  · subst hab
    rw [Function.update_self, Function.update_self, hu]
    obtain ⟨hk, -⟩ := List.getElem?_eq_some_iff.mp cell
    obtain ⟨hk', -⟩ := List.getElem?_eq_some_iff.mp hown
    exact ⟨(List.getElem?_append_left hk').trans hown,
      (List.getElem?_append_left hk).trans cell⟩
  · rw [Function.update_of_ne hab, Function.update_of_ne hab]
    exact ⟨hown, cell⟩

/-- And one more, of client `i`. -/
theorem owns_new (h : Owned s)
    (hu : u.calls = (s.servers a).calls ++ [call']) :
    Owns (afterCall s i c a u) i a (s.servers a).calls.length call' := by
  unfold Owns afterCall
  dsimp only
  rw [Function.update_self, Function.update_self, hu]
  refine ⟨?_, List.getElem?_concat_length⟩
  rw [← h.lengths a]
  exact List.getElem?_concat_length

/-- Those are all. -/
theorem owns_cases (h : Owned s)
    (hu : u.calls = (s.servers a).calls ++ [call'])
    (howns : Owns (afterCall s i c a u) j b k call) :
    Owns s j b k call ∨ (j = i ∧ b = a ∧
      k = (s.servers a).calls.length ∧ call = call') := by
  obtain ⟨hown, cell⟩ := howns
  unfold afterCall at hown cell
  dsimp only at hown cell
  by_cases hab : b = a
  · subst hab
    rw [Function.update_self] at hown cell
    rw [hu] at cell
    have hlen := h.lengths b
    rcases getElem?_append_one_cases cell with ⟨hk, rfl⟩ | hold
    · rcases getElem?_append_one_cases hown with ⟨-, rfl⟩ | hown
      · exact .inr ⟨rfl, rfl, hk, rfl⟩
      · obtain ⟨hlt, -⟩ := List.getElem?_eq_some_iff.mp hown
        omega
    · rcases getElem?_append_one_cases hown with ⟨hk, -⟩ | hown
      · obtain ⟨hlt, -⟩ := List.getElem?_eq_some_iff.mp hold
        omega
      · exact .inl ⟨hown, hold⟩
  · rw [Function.update_of_ne hab] at hown cell
    exact .inl ⟨hown, cell⟩

/-- A client that is about to call has no `Distribute` call. -/
theorem not_maySend (idle : c.call = none)
    (makes : Makes c host a event call') : ¬MaySend c b k := by
  intro h
  unfold MaySend at h
  cases makes with
  | reserve hphase =>
      rw [hphase] at h
      exact h
  | distribute hphase =>
      rw [hphase, idle] at h
      cases h.2

/-- A client calls. -/
theorem Owned.makes (h : Owned s) (who : s.clients[i]? = some c)
    (idle : c.call = none) (makes : Makes c host a event call')
    (hstep : Server.step (cfg a) (s.servers a) event = some u) :
    Owned (afterCall s i c a u) := by
  have hu : u.calls = (s.servers a).calls ++ [call'] := by
    have harrives : Server.Arrives event call' := by
      cases makes with
      | reserve => exact .reserve
      | distribute => exact .distribute ..
    rw [Server.step_arrives hstep harrives]
  have hext : Extends s (afterCall s i c a u) := fun j b k call howns =>
    ⟨call, owns_afterCall hu howns, .same call⟩
  have hnew := owns_new (c := c) (i := i) h hu
  have hsound := h.sound i c who
  have hnone : ∀ {b k host request phase},
      ¬Owns s i b k (.distribute host request phase) := by
    intro b k host request phase howns
    obtain ⟨c₀, who₀, -, -, hmay⟩ := h.jobs _ _ _ _ _ _ howns
    obtain rfl := Option.some.inj (who.symm.trans who₀)
    exact not_maySend idle makes hmay
  obtain ⟨hi, -⟩ := List.getElem?_eq_some_iff.mp who
  have who' : (afterCall s i c a u).clients[i]? = some
      { c with call := some (s.servers a).calls.length } :=
    List.getElem?_set_self hi
  refine ⟨?_, ?_, ?_, ?_⟩
  · intro b
    unfold afterCall
    dsimp only
    by_cases hab : b = a
    · subst hab
      rw [Function.update_self, Function.update_self, hu,
        List.length_append, List.length_append, h.lengths b]
      rfl
    · rw [Function.update_of_ne hab, Function.update_of_ne hab]
      exact h.lengths b
  · refine clients_set who (P := fun j d => Sound (afterCall s i c a u) j d)
      (fun j d hj => hext.sound (h.sound j d hj)) ?_
    unfold Sound at hsound ⊢
    dsimp only
    cases makes with
    | reserve hphase =>
        rw [hphase]
        intro k hk
        cases hk
        exact ⟨_, hnew⟩
    | distribute hphase =>
        rw [hphase] at hsound ⊢
        refine ⟨hsound.1, hext.granted hsound.2.1, fun k hk => ?_⟩
        cases hk
        exact ⟨_, _, hnew⟩
  · intro j b k host' request phase howns
    rcases owns_cases h hu howns with hold | ⟨rfl, rfl, rfl, hcall⟩
    · obtain ⟨d, hj, hjob, hg, hmay⟩ := h.jobs _ _ _ _ _ _ hold
      by_cases hij : i = j
      · subst hij
        exact absurd hold hnone
      · exact ⟨d, (List.getElem?_set_ne hij).trans hj, hjob,
          hext.granted hg, hmay⟩
    · cases makes with
      | reserve => cases hcall
      | distribute hphase =>
          cases hcall
          unfold Sound at hsound
          rw [hphase] at hsound
          refine ⟨_, who', hsound.1, hext.granted hsound.2.1, ?_⟩
          unfold MaySend
          rw [hphase]
          exact ⟨rfl, rfl⟩
  · intro j b k host₁ request₁ phase₁ b' k' host₂ request₂ phase₂ h₁ h₂
    rcases owns_cases h hu h₁ with hold₁ | ⟨rfl, rfl, rfl, -⟩
    · rcases owns_cases h hu h₂ with hold₂ | ⟨rfl, rfl, rfl, -⟩
      · exact h.once _ _ _ _ _ _ _ _ _ _ _ hold₁ hold₂
      · exact absurd hold₁ hnone
    · rcases owns_cases h hu h₂ with hold₂ | ⟨-, rfl, rfl, -⟩
      · exact absurd hold₂ hnone
      · exact ⟨rfl, rfl⟩

end

/-- Every state of a run with distinct uuids at each server. -/
theorem Owned.of_reaches
    (h : Reaches (step cfg) (fun s e => fresh s e = true) (.start clock)
      s) : Owned s := by
  refine h.invariant_with (I := fun s => ∀ a,
      Reaches (Server.step (cfg a)) (fun s e => Server.fresh s e = true)
        (.start (clock a)) (s.servers a))
    (fun s hs => server_reaches hs) (Owned.start clock) ?_
  intro s e t hreach hs _ hse
  cases step_effect hse with
  | client clientCfg => exact hs.client clientCfg
  | told who tells hsend => exact hs.told hreach who tells hsend
  | server internal hu => exact hs.server internal hu
  | call who idle makes hu => exact hs.makes who idle makes hu

end Distplusplus.Cluster
