/-
The server's shared state and its atomic steps (`server/server.cpp`,
`Server::Reserve`, `Server::Distribute`, `Server::reservationReaper`).

# What is atomic

The counter `jobsRunning` is a sequentially consistent atomic: each access
is a step of its own — the load that is compared, the second load, the
compare-exchange, each guard's decrement, the reaper's subtraction. The set
of reservations is only touched under `reservationLock`, and the insertion
and the erasure by uuid touch nothing else there, so each is one step. The
reaper also subtracts from the counter before it releases the lock, so it
holds the lock across two steps (`ReaperPhase.erased`), and the other two
are disabled in between (`lockFree`).

Any number of calls run at once: a call is a cell of `calls`, and a step
rewrites one cell. The interleaving is the list of events.

# What is not the program

`clock` is `system_clock`; it moves by `Event.tick` alone, never back.
`log` is a ghost: the program does not keep it, the theorems about whole
runs read it. Newest note first.

# Exceptions

In `Reserve` the uuid generator can throw while the guard is armed; in
`Distribute` the body's own phases say what throws. Either way the guard
decrements, the handler calls `std::terminate` and nothing moves any more
(`terminated`). Running out of memory is not modelled.
-/
import Distplusplus.Lib.Bag
import Distplusplus.Lib.Ledger
import Distplusplus.Lib.Machine
import Distplusplus.Server.Distribute
import Mathlib.Data.Int.Order.Basic

namespace Distplusplus.Server

open Lib Common

-- ================================================================== state

/-- `reservationType`: a uuid and the time it was given out. -/
structure Reservation where
  uuid : Str
  time : Int
  deriving DecidableEq, Repr

/-- The members of `Server` that never change. -/
structure Config where
  jobsMax : UInt64
  reservationTimeout : UInt64
  deriving DecidableEq, Repr

/-- Where a `Reserve` call is. From `generate` to `defuse` the guard is
armed; `unwind` is the generator's exception on its way through it. -/
inductive ReservePhase where
  | check
  | load
  | exchange (jobsCur : UInt64)
  | generate
  | insert (uuid : Str)
  | defuse (uuid : Str)
  | unwind
  | terminate
  | returned (status : Status) (answer : ReservationAnswer)
  deriving DecidableEq, Repr

/-- A running call. -/
inductive Call where
  | reserve (phase : ReservePhase)
  | distribute (host : Host) (request : CompileRequest) (phase : Phase)

/-- Where the reaper is: before its stop test, between the timestamp and
the sleep, asleep since a time, or past the erasure with the lock held. -/
inductive ReaperPhase where
  | loop
  | stamped (timestamp : Int)
  | asleep (timestamp since : Int)
  | erased (timestamp : Int) (diff : Nat)
  | stopped
  deriving DecidableEq, Repr

/-- What the ghost log records. `time` is the clock when an erasure ran,
`removed` what it removed, `timestamp` the start of the reaper's pass. -/
inductive Note where
  | generated (uuid : Str)
  | inserted (reservation : Reservation)
  | presented (call : Nat) (uuid : Str) (time : Int)
      (removed : List Reservation)
  | reaped (timestamp time : Int) (removed : List Reservation)
  | started (call : Nat) (request : CompileRequest)
  deriving DecidableEq, Repr

/-- The server and everything that runs on it. -/
structure State where
  jobsRunning : UInt64
  reservations : Bag Reservation.time
  calls : List Call
  reaper : ReaperPhase
  clock : Int
  stop : Bool
  terminated : Bool
  log : List Note

/-- A fresh server, its clock anywhere. -/
def State.start (clock : Int) : State where
  jobsRunning := 0
  reservations := Bag.empty
  calls := []
  reaper := .loop
  clock := clock
  stop := false
  terminated := false
  log := []

-- =================================================================== time

/-- How long `sleep_for(seconds(reservationTimeout))` sleeps at least. The
count of `std::chrono::seconds` is signed, and a negative one is no sleep. -/
def sleepTime (cfg : Config) : Int :=
  max 0 (cfg.reservationTimeout.toInt64.toInt * second)

-- ================================================================== Reserve

/-- Nobody holds `reservationLock`. -/
def State.lockFree (s : State) : Bool :=
  match s.reaper with
  | .erased _ _ => false
  | _ => true

/-- Call `i` moves on. -/
def State.setCall (s : State) (i : Nat) (call : Call) : State :=
  { s with calls := s.calls.set i call }

/-- "all slots are full". -/
def full (jobsCur : UInt64) : ReservePhase :=
  .returned ⟨.RESOURCE_EXHAUSTED, "host is full".toList,
    toDecimal jobsCur.toNat⟩ ⟨false, none⟩

/-- The next step of `Reserve`. A compare-exchange that fails leaves the
counter's value in `jobsCur`. -/
def reserveStep (cfg : Config) (s : State) (i : Nat) :
    ReservePhase → Option State
  | .check =>
      if s.jobsRunning < cfg.jobsMax then
        some (s.setCall i (.reserve .load))
      else some (s.setCall i (.reserve (full cfg.jobsMax)))
  | .load => some (s.setCall i (.reserve (.exchange s.jobsRunning)))
  | .exchange jobsCur =>
      if s.jobsRunning = jobsCur then
        some { s.setCall i (.reserve .generate) with
          jobsRunning := jobsCur + 1 }
      else some (s.setCall i (.reserve (full s.jobsRunning)))
  | .generate => none
  | .insert uuid =>
      if s.lockFree then
        some { s.setCall i (.reserve (.defuse uuid)) with
          reservations := s.reservations.insert ⟨uuid, s.clock⟩
          log := .inserted ⟨uuid, s.clock⟩ :: s.log }
      else none
  | .defuse uuid =>
      some (s.setCall i (.reserve (.returned Status.ok ⟨true, some uuid⟩)))
  | .unwind =>
      some { s.setCall i (.reserve .terminate) with
        jobsRunning := s.jobsRunning - UInt64.ofNat 1 }
  | .terminate => some { s with terminated := true }
  | .returned _ _ => none

-- =============================================================== Distribute

/-- "not in reservation list". -/
def refused (request : CompileRequest) : Phase :=
  .returned ⟨.FAILED_PRECONDITION,
    "error: uuid ".toList ++ request.uuid ++
      " not in reservation list.".toList, []⟩ none

/-- The next step of `Distribute`: the erasure, the guard and the process
start touch shared state, the rest is the body's own. -/
def distributeCallStep (s : State) (i : Nat) (host : Host)
    (request : CompileRequest) (phase : Phase) : Option State :=
  let next := Call.distribute host request (distributeStep host request phase)
  match phase with
  | .lookup =>
      if s.lockFree then
        let removed := s.reservations.matching (·.uuid = request.uuid)
        let note := Note.presented i request.uuid s.clock removed
        if removed = [] then
          some { s.setCall i (.distribute host request (refused request)) with
            log := note :: s.log }
        else
          some { s.setCall i (.distribute host request .sanitize) with
            reservations := s.reservations.eraseIf (·.uuid = request.uuid)
            log := note :: s.log }
      else none
  | .launch _ _ _ _ =>
      some { s.setCall i next with log := .started i request :: s.log }
  | .leave _ =>
      some { s.setCall i next with
        jobsRunning := s.jobsRunning - UInt64.ofNat 1 }
  | .terminate _ => some { s with terminated := true }
  | .returned _ _ => none
  | _ => some (s.setCall i next)

-- =================================================================== reaper

/-- The next step of `reservationReaper`. -/
def reaperStep (cfg : Config) (s : State) : Option State :=
  match s.reaper with
  | .loop =>
      if s.stop then some { s with reaper := .stopped }
      else some { s with reaper := .stamped s.clock }
  | .stamped timestamp =>
      some { s with reaper := .asleep timestamp s.clock }
  | .asleep timestamp since =>
      if since + sleepTime cfg ≤ s.clock then
        let removed := s.reservations.below timestamp
        some { s with
          reservations := s.reservations.eraseBelow timestamp
          reaper := .erased timestamp removed.length
          log := .reaped timestamp s.clock removed :: s.log }
      else none
  | .erased _ diff =>
      some { s with
        jobsRunning := s.jobsRunning - UInt64.ofNat diff
        reaper := .loop }
  | .stopped => none

-- ============================================================ the machine

/-- One event of a run: time passes, a call arrives, a call or the reaper
takes its next step, the uuid generator answers a call or throws (`none`),
the thread is asked to stop. -/
inductive Event where
  | tick (ticks : Nat)
  | reserve
  | distribute (host : Host) (request : CompileRequest)
  | advance (i : Nat)
  | generate (i : Nat) (uuid : Option Str)
  | reaper
  | requestStop

/-- The uuid generator answers call `i`. -/
def generateStep (s : State) (i : Nat) (uuid : Option Str) :
    Option State :=
  match s.calls[i]? with
  | some (.reserve .generate) =>
      match uuid with
      | some uuid =>
          some { s.setCall i (.reserve (.insert uuid)) with
            log := .generated uuid :: s.log }
      | none => some (s.setCall i (.reserve .unwind))
  | _ => none

/-- Call `i` takes its next step. -/
def advanceStep (cfg : Config) (s : State) (i : Nat) : Option State :=
  match s.calls[i]? with
  | some (.reserve phase) => reserveStep cfg s i phase
  | some (.distribute host request phase) =>
      distributeCallStep s i host request phase
  | none => none

/-- One atomic step; nothing moves in a terminated process. -/
def step (cfg : Config) (s : State) (e : Event) : Option State :=
  if s.terminated then none
  else match e with
    | .tick ticks => some { s with clock := s.clock + ticks }
    | .reserve => some { s with calls := s.calls ++ [.reserve .check] }
    | .distribute host request =>
        some { s with
          calls := s.calls ++ [.distribute host request .lookup] }
    | .advance i => advanceStep cfg s i
    | .generate i uuid => generateStep s i uuid
    | .reaper => reaperStep cfg s
    | .requestStop => some { s with stop := true }

-- ============================================================== accounting

/-- A `Reserve` past its exchange that has not inserted its entry (nor had
its guard take the slot back). -/
def Call.reserving : Call → Bool
  | .reserve .generate | .reserve (.insert _) | .reserve .unwind => true
  | _ => false

/-- A `Distribute` that has erased its entry and whose guard has not run. -/
def Call.serving : Call → Bool
  | .distribute _ _ phase =>
      match phase with
      | .lookup | .returned _ _ | .terminate false => false
      | _ => true
  | _ => false

/-- A `Reserve` between its check and the outcome of its exchange. -/
def Call.inFlight : Call → Bool
  | .reserve .load | .reserve (.exchange _) => true
  | _ => false

/-- A call that has not returned. -/
def Call.inProgress : Call → Bool
  | .reserve (.returned _ _) => false
  | .distribute _ _ (.returned _ _) => false
  | _ => true

/-- The entries the reaper has erased and not yet subtracted. -/
def ReaperPhase.pending : ReaperPhase → Nat
  | .erased _ diff => diff
  | _ => 0

namespace State

/-- `Reserve` calls past a successful exchange, before their insertion. -/
def reserving (s : State) : Nat := s.calls.countP Call.reserving

/-- `Distribute` calls that hold a slot. -/
def serving (s : State) : Nat := s.calls.countP Call.serving

/-- `Reserve` calls that have passed the check and may still exchange. -/
def inFlight (s : State) : Nat := s.calls.countP Call.inFlight

/-- Calls running at once. -/
def inProgress (s : State) : Nat := s.calls.countP Call.inProgress

/-- Granted slots: reservations and running jobs. -/
def granted (s : State) : Nat := s.reservations.size + s.serving

/-- Every slot that is out, half-finished calls included. -/
def slots (s : State) : Nat :=
  s.reservations.size + s.reserving + s.serving + s.reaper.pending

end State

/-- What an event takes from the counter: a guard one, the reaper its
pass. -/
def takesBack (s : State) : Event → Nat
  | .advance i =>
      match s.calls[i]? with
      | some (.reserve .unwind) => 1
      | some (.distribute _ _ (.leave _)) => 1
      | _ => 0
  | .reaper => s.reaper.pending
  | _ => 0

-- ============================================================ the ghost log

/-- The uuid a note says was generated. -/
def Note.generates : Note → Option Str
  | .generated uuid => some uuid
  | _ => none

/-- The reservation a note says was inserted. -/
def Note.inserts : Note → Option Reservation
  | .inserted reservation => some reservation
  | _ => none

/-- The reservations a note says were removed. -/
def Note.removes : Note → List Reservation
  | .presented _ _ _ removed => removed
  | .reaped _ _ removed => removed
  | _ => []

/-- Does a note say that call `i` started a compiler? -/
def Note.starts (i : Nat) : Note → Bool
  | .started call _ => call == i
  | _ => false

/-- Is a note a pass of the reaper? -/
def Note.isReaped : Note → Bool
  | .reaped _ _ _ => true
  | _ => false

/-- The uuids generated in a log. -/
def generated (log : List Note) : List Str := log.filterMap Note.generates

/-- The reservations inserted in a log. -/
def inserted (log : List Note) : List Reservation :=
  log.filterMap Note.inserts

/-- The reservations removed in a log, once for each removal. -/
def removed (log : List Note) : List Reservation := log.flatMap Note.removes

/-- Generated uuids are pairwise distinct: each is new when it comes. -/
def fresh (s : State) : Event → Bool
  | .generate _ (some uuid) => decide (uuid ∉ generated s.log)
  | _ => true

end Distplusplus.Server
