/-
Clients and servers together.

Every client is a run of `Client::send` and every server the server's
machine; between them gRPC carries a call to the server and its answer
back, or fails. There is any number of clients, and a server for each
address; one that nobody reaches is one whose calls all fail.

# What gRPC does

- `Event.call`: a client's call reaches the server. That it may take its
  time needs no event: a call does nothing before its first step.
- `Event.answer`: the answer of a call that has returned reaches the client.
- `Event.fail`: gRPC gives up on a call, before or after it reached the
  server, with a status of its own, which is not `OK` and has a name. No
  message comes with it, and the server does not learn of it: its call goes
  on.

`owners` is a ghost: which client made which call of a server.
-/
import Distplusplus.Client.Send
import Distplusplus.Server.Machine
import Mathlib.Logic.Function.Basic

namespace Distplusplus.Cluster

open Lib Common Client

-- ================================================================== statuses

/-- A status that gRPC gives a call it could not bring to its end. -/
def isFailure (status : ReceivedStatus) : Bool :=
  decide (status.code ≠ 0) && decide (Listed status.code)

/-- A `CompileAnswer` that was never filled in. -/
def noAnswer : CompileAnswer := ⟨0, [], [], none⟩

-- ================================================================= the state

/-- A client in `send`, and the number of its call at the server while it
waits for the answer. -/
structure Sender where
  cfg : Send.Config
  send : Send.State
  call : Option Nat

/-- Whom a client calls. -/
def peer : Send.Phase → Option Str
  | .reserving server _ => some server
  | .distributing stub _ => some stub
  | .roundOver | .gaveUp _ | .done _ => none

/-- The servers by address, who made their calls, and the clients. -/
structure State where
  servers : Str → Server.State
  owners : Str → List Nat
  clients : List Sender

/-- Before the first client, every clock anywhere. -/
def State.start (clock : Str → Int) : State where
  servers := fun address => .start (clock address)
  owners := fun _ => []
  clients := []

/-- A client starts; a call is made, answered or given up; a client looks
at the clock; a server goes on by itself. -/
inductive Event where
  | client (cfg : Send.Config)
  | call (i : Nat) (host : Server.Host)
  | answer (i : Nat)
  | fail (i : Nat) (status : ReceivedStatus)
  | clock (i : Nat) (late : Bool)
  | server (address : Str) (event : Server.Event)

-- ==================================================================== a step

/-- Events a server has without a client. -/
def isInternal : Server.Event → Bool
  | .reserve | .distribute _ _ => false
  | _ => true

/-- Client `i` makes a call. -/
def arrive (cfg : Str → Server.Config) (s : State) (i : Nat) (c : Sender)
    (address : Str) (event : Server.Event) : Option State :=
  (Server.step (cfg address) (s.servers address) event).map fun t =>
    { servers := Function.update s.servers address t
      owners := Function.update s.owners address
        (s.owners address ++ [i])
      clients := s.clients.set i
        { c with call := some (s.servers address).calls.length } }

/-- Client `i` is told something. -/
def deliver (s : State) (i : Nat) (c : Sender) (event : Send.Event) :
    Option State :=
  (Send.step c.cfg c.send event).map fun send =>
    { s with clients := s.clients.set i ⟨c.cfg, send, none⟩ }

/-- The call a client makes, at a server whose environment is `host`. -/
def callStep (cfg : Str → Server.Config) (s : State) (i : Nat) (c : Sender)
    (host : Server.Host) : Option State :=
  match c.call, c.send.phase with
  | none, .reserving server _ => arrive cfg s i c server .reserve
  | none, .distributing stub compileRequest =>
      arrive cfg s i c stub (.distribute host compileRequest)
  | _, _ => none

/-- What a client is told of a call that has returned. -/
def answered : Server.Call → Option Send.Event
  | .reserve (.returned status answer) =>
      some (.reserve (received status) answer)
  | .distribute _ _ (.returned status answer) =>
      some (.distribute (received status) (answer.getD noAnswer))
  | _ => none

/-- The answer of a client's call. -/
def answerStep (s : State) (i : Nat) (c : Sender) : Option State := do
  let k ← c.call
  let address ← peer c.send.phase
  let call ← (s.servers address).calls[k]?
  let event ← answered call
  deliver s i c event

/-- The end of a call that failed. -/
def failStep (s : State) (i : Nat) (c : Sender) (status : ReceivedStatus) :
    Option State :=
  match c.send.phase with
  | .reserving _ _ => deliver s i c (.reserve status ⟨false, none⟩)
  | .distributing _ _ => deliver s i c (.distribute status noAnswer)
  | _ => none

/-- One event. -/
def step (cfg : Str → Server.Config) (s : State) : Event → Option State
  | .client clientCfg =>
      some { s with
        clients := s.clients ++ [⟨clientCfg, Send.start clientCfg, none⟩] }
  | .call i host => s.clients[i]?.bind (callStep cfg s i · host)
  | .answer i => s.clients[i]?.bind (answerStep s i)
  | .fail i status =>
      if isFailure status then s.clients[i]?.bind (failStep s i · status)
      else none
  | .clock i late => s.clients[i]?.bind (deliver s i · (.clock late))
  | .server address event =>
      if isInternal event then
        (Server.step (cfg address) (s.servers address) event).map fun t =>
          { s with servers := Function.update s.servers address t }
      else none

/-- The uuids of each server are pairwise distinct. -/
def fresh (s : State) : Event → Bool
  | .server address event => Server.fresh (s.servers address) event
  | _ => true

end Distplusplus.Cluster
