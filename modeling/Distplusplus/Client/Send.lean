/-
Reserving a slot and sending the job (`client/client.cpp`, `Client::reserve`
and `Client::send`).

`send` goes round its servers until one of them answers a `Reserve` call
with the status `OK`, and sends the job there. What the other side decides,
the answer to each call and how late it is at the end of a round, is an
event; everything else is `step`.

A grant comes in three parts: the status of the call, `success` and the
uuid. `reserve` reads the last two and keeps the uuid in a member of the
client, `send` reads the first.
-/
import Distplusplus.Client.Answer
import Distplusplus.Client.Func

namespace Distplusplus.Client.Send

open Lib Common

-- ================================================================= the job

/-- What `send` is called with, and the client's compiler and compression
type. -/
structure Job where
  compilerName : Str
  args : List Arg
  fileName : Str
  fileContent : Str
  compressionType : CompressionType
  cwd : Str
  deriving DecidableEq, Repr

/-- The request. -/
def Job.compileRequest (job : Job) (uuid : Str) : CompileRequest :=
  { uuid := uuid
    compiler := job.compilerName
    inputFile := ⟨job.fileName, job.compressionType, job.fileContent⟩
    cwd := job.cwd
    argument := job.args }

/-- The job `func` makes of a parsed command line. -/
def jobOf (compiler : Str) (buildTarget : Arg) (p : Parser)
    (compressionType : CompressionType) (content cwd : Str) : Job :=
  let compilerType := mapCompiler compiler
  { compilerName := commandCompiler compilerType buildTarget compiler
    args := requestArgs compilerType buildTarget p
    fileName := filename p.infile
    fileContent := content
    compressionType := compressionType
    cwd := cwd }

-- ============================================================== the states

/-- The servers in their order, and which log records are written. -/
structure Config where
  servers : List Str
  job : Job
  logsWarnings : Bool
  logsErrors : Bool

/-- Where `send` is: waiting for the answer to `Reserve`, at the end of a
round, out of the loop with an exception, waiting for the answer to
`Distribute`, or through. -/
inductive Phase where
  | reserving (server : Str) (rest : List Str)
  | roundOver
  | gaveUp (thrown : Thrown)
  | distributing (stub : Str) (compileRequest : CompileRequest)
  | done (result : Except Thrown CompileAnswer)
  deriving Repr

/-- `send`, with the member that keeps the uuid. -/
structure State where
  uuid : Str
  allDown : Bool
  phase : Phase

/-- What happens: `Reserve` answers, the clock is read at the end of a
round, `Distribute` answers. -/
inductive Event where
  | reserve (status : ReceivedStatus) (reservationAnswer : ReservationAnswer)
  | clock (late : Bool)
  | distribute (status : ReceivedStatus) (compileAnswer : CompileAnswer)

-- ================================================================ programs

/-- `Client::reserve`, once its call has been answered: what becomes of the
member. -/
def reserve (uuid : Str) (reservationAnswer : ReservationAnswer) :
    Except Thrown Str :=
  if reservationAnswer.success then
    match reservationAnswer.uuid with
    | none => .error .fallbackSignal
    | some uuid => .ok uuid
  else .ok uuid

/-- On to the next server, or to the end of the round. -/
def nextServer (s : State) : List Str → State
  | server :: rest => { s with phase := .reserving server rest }
  | [] =>
      if s.allDown then { s with phase := .gaveUp .fallbackSignal }
      else { s with phase := .roundOver }

/-- What `send` makes of the status of `Reserve`. -/
def reserved (cfg : Config) (status : ReceivedStatus) (server : Str)
    (rest : List Str) (s : State) : State :=
  -- OK
  if status.code = 0 then
    { s with
      allDown := false
      phase := .distributing server (cfg.job.compileRequest s.uuid) }
  -- RESOURCE_EXHAUSTED
  else if status.code = 8 then nextServer { s with allDown := false } rest
  -- UNAVAILABLE
  else if status.code = 14 then nextServer s rest
  else if cfg.logsWarnings then
    match mapGRPCStatus status.code with
    | .error e => { s with phase := .gaveUp (.exception e) }
    | .ok _ => nextServer s rest
  else nextServer s rest

/-- Before the first call. -/
def start (cfg : Config) : State :=
  nextServer ⟨[], true, .roundOver⟩ cfg.servers

/-- One event. -/
def step (cfg : Config) (s : State) : Event → Option State
  | .reserve status reservationAnswer =>
      match s.phase with
      | .reserving server rest =>
          match reserve s.uuid reservationAnswer with
          | .error thrown => some { s with phase := .gaveUp thrown }
          | .ok uuid =>
              some (reserved cfg status server rest { s with uuid := uuid })
      | _ => none
  | .clock late =>
      match s.phase with
      | .roundOver =>
          if late then some { s with phase := .gaveUp .fallbackSignal }
          else some (nextServer s cfg.servers)
      | _ => none
  | .distribute status compileAnswer =>
      match s.phase with
      | .distributing _ _ =>
          some { s with
            phase := .done (distributed cfg.logsErrors status compileAnswer) }
      | _ => none

end Distplusplus.Client.Send
