/-
The client from its start to its end (`client/main.cpp`, `func` and `main`).

The pieces are modelled where they are proved about: the parser, the two
argument lists, `send`, the end of `func`, the handler. Here they are put
together in the source's order, as a program that acts: it starts
processes, calls servers, writes a file and prints.

`World` is everything the client is told. `answers` is what happens to the
calls of `send`; where it ends before `send` does, the client waits.
`servers` is `ClientFactory`: the candidates `QueryHelper::init` leaves for
a compiler, in their order, or the exception it throws.

A stack that runs out and an index that is out of bounds are no exceptions:
the process dies (`Stop.dies`).
-/
import Distplusplus.Client.Console
import Distplusplus.Client.Send
import Distplusplus.Client.Stdin
import Distplusplus.Lib.Acts

namespace Distplusplus.Client.Main

open Lib Common

-- ============================================================= environment

/-- What the client finds, and what it is told. -/
structure World where
  platform : Platform
  m : Local
  content : Str → Str
  depth : Nat
  stdin : Stdin
  first : Found
  second : Found
  currentPath : Except Exception Str
  asserts : Bool
  child : Child
  lib : Option Zstd
  buildTarget : Arg
  compressionType : CompressionType
  compressionLevel : Int64
  fallback : Bool
  logsWarnings : Bool
  logsErrors : Bool
  servers : Str → Except Exception (List Str)
  answers : List Send.Event
  outfile : Outfile

/-- The file system as the parser sees it. -/
def World.fs (w : World) : FileSystem := ⟨w.m.status, w.content⟩

/-- What the client does that somebody else can see. -/
inductive Action where
  | process (program : Str) (args : List Arg) (cin : Str)
  | query (compilerName : Str)
  | reserve (server : Str)
  | distribute (server : Str) (request : CompileRequest)
  | write (path : Str) (data : Str)
  | cout (text : Str)
  | cerr (text : Str)
  deriving DecidableEq, Repr

/-- Why a program goes no further. -/
inductive Stop where
  | thrown (t : Thrown)
  | dies
  | waiting
  deriving DecidableEq, Repr

abbrev Program := Acts Action Stop

/-- `throw FallbackSignal()`. -/
def throwFallback {T : Type} : Program T :=
  Acts.stop (.thrown .fallbackSignal)

/-- Any other exception goes through. -/
def escaping {T : Type} : Except Exception T → Program T
  | .ok x => pure x
  | .error e => Acts.stop (.thrown (.exception e))

-- ================================================================== pieces

/-- A `ProcessHelper`: the process is started behind the conditions. -/
def processHelper (w : World) (program : Str) (args : List Arg)
    (cin : Str) : Program ProcessHelper := do
  escaping (checkProgram w.m w.asserts program)
  Acts.act (.process program args cin)
  escaping (w.child program args cin)

/-- The parser, with what `func` does about its exceptions. -/
def parser (w : World) (compilerArgs : List Arg) : Program Parser :=
  match parse w.fs w.depth compilerArgs with
  | .ok p => pure p
  | .error (.parserError _) => throwFallback
  | .error .fallbackSignal => throwFallback
  | .error (.filesystemError errno) =>
      Acts.stop (.thrown (.exception (.filesystemError errno)))
  | .error .stackOverflow => Acts.stop .dies

/-- The call `send` has made in a phase. -/
def calling : Send.Phase → List Action
  | .reserving server _ => [.reserve server]
  | .distributing stub compileRequest => [.distribute stub compileRequest]
  | .roundOver | .gaveUp _ | .done _ => []

/-- What `send` has come to. -/
def outcome : Send.Phase → Except Stop CompileAnswer
  | .gaveUp thrown => .error (.thrown thrown)
  | .done (.ok answer) => .ok answer
  | .done (.error thrown) => .error (.thrown thrown)
  | .reserving _ _ | .roundOver | .distributing _ _ => .error .waiting

/-- `send` from a state on. -/
def sendFrom (cfg : Send.Config) :
    Send.State → List Send.Event → Program CompileAnswer
  | s, [] => ⟨calling s.phase, outcome s.phase⟩
  | s, e :: answers =>
      match Send.step cfg s e with
      | none => ⟨calling s.phase, outcome s.phase⟩
      | some t =>
          ⟨calling s.phase ++ (sendFrom cfg t answers).done,
            (sendFrom cfg t answers).result⟩

/-- `Client::send`. -/
def send (w : World) (servers : List Str) (job : Send.Job) :
    Program CompileAnswer :=
  let cfg : Send.Config := ⟨servers, job, w.logsWarnings, w.logsErrors⟩
  sendFrom cfg (Send.start cfg) w.answers

/-- A text is printed unless it is empty. -/
def print (stream : Str → Action) (text : Str) : Program Unit :=
  if text = [] then pure () else Acts.act (stream text)

/-- A file that was opened has a new content. -/
def writeFile (outfile : Str) : Option Str → Program Unit
  | none => pure ()
  | some data => Acts.act (.write outfile data)

/-- The output file, then the messages. -/
def report (outfile : Str) (remote : Remote) : Program Int32 := do
  writeFile outfile remote.written
  print .cout remote.stderr
  print .cout remote.stdout
  pure remote.returnCode

/-- The end of `func`. -/
def conclude (w : World) (outfile : Str) (answer : CompileAnswer) :
    Program Int32 := do
  let remote ← escaping (receive w.lib w.outfile answer)
  report outfile remote

-- ==================================================================== func

/-- What `func` does once there is something to send. -/
def compileRemotely (w : World) (p : Parser) (job : Send.Job) :
    Program Int32 := do
  Acts.act (.query job.compilerName)
  let servers ← escaping (w.servers job.compilerName)
  let answer ← send w servers job
  conclude w p.outfile answer

/-- What `func` does once the command line is parsed and can be
distributed. -/
def distribute (w : World) (compiler : Arg) (cwd : Str) (p : Parser) :
    Program Int32 := do
  let preprocessor ← processHelper w
    (preprocessor w.m w.buildTarget compiler)
    (preprocessorArgs (mapCompiler (stem compiler)) w.buildTarget p) []
  let content ← escaping (compressor w.lib w.compressionType
    w.compressionLevel preprocessor.stdout)
  print .cerr preprocessor.stderr
  if preprocessor.returnCode ≠ 0 then pure preprocessor.returnCode
  else compileRemotely w p (Send.jobOf (stem compiler) w.buildTarget p
    w.compressionType content cwd)

/-- `func`. -/
def func (w : World) (argv0 : Arg) (args : List Arg) : Program Int32 :=
  if args = [] ∧ samePath (stem argv0) "distplusplus".toList then pure (-1)
  else
    match (argv0 :: args)[compilerPos argv0]? with
    | none => Acts.stop .dies
    | some compiler => do
        let cwd ← escaping w.currentPath
        let p ← parser w ((argv0 :: args).drop (compilerPos argv0 + 1))
        if p.canDistribute = some true then distribute w compiler cwd p
        else throwFallback

-- ==================================================================== main

/-- The handler of `FallbackSignal`, given how it ends. -/
def localInvocation (w : World) : Fallback → Program Int32
  | .disabled => pure (-1)
  | .notFound _ => pure (-1)
  | .starts program args cin => do
      let localInvocation ← processHelper w program args cin
      Acts.act (.cerr localInvocation.stderr)
      Acts.act (.cout localInvocation.stdout)
      pure localInvocation.returnCode
  | .filesystemError errno =>
      Acts.stop (.thrown (.exception (.filesystemError errno)))
  | .outOfRange => Acts.stop .dies

/-- The handler catches `FallbackSignal` alone. -/
def caught (handler : Program Int32) : Stop → Option (Program Int32)
  | .thrown .fallbackSignal => some handler
  | .thrown (.exception _) => none
  | .dies => none
  | .waiting => none

/-- `main`. -/
def main (w : World) (argv0 : Arg) (args : List Arg) : Program Int32 :=
  match stdinEmpty w.platform w.first w.stdin with
  | (empty, s) =>
      (if empty then func w argv0 args else throwFallback).handle
        (caught (localInvocation w (runFallback w.m w.fallback
          (fallbackInput w.platform w.second s) (argv0 :: args))))

-- ===================================================================== a run

/-- A directory with `a.c`, and a compiler `cc`. -/
def plainMachine : Local where
  path := table ["/usr/bin"]
  status := fun file =>
    if file ∈ table ["/usr/bin/cc", "a.c"] then .regular
    else if file ∈ table ["/usr/bin"] then .other
    else .notFound
  access := fun _ => true
  directory := parentPath
  directories := by decide +kernel
  noName := by decide +kernel

/-- A client with one server, which compiles. -/
def plainWorld : World where
  platform := ⟨true, 1, Nat.zero_lt_one⟩
  m := plainMachine
  content := fun _ => []
  depth := 2
  stdin := ⟨[], true, none, []⟩
  first := ⟨0, ' '⟩
  second := ⟨0, ' '⟩
  currentPath := .ok "/".toList
  asserts := true
  child := fun _ _ _ => .ok ⟨0, "int a;".toList, []⟩
  lib := none
  buildTarget := "target".toList
  compressionType := CompressionType.NONE
  compressionLevel := 1
  fallback := true
  logsWarnings := true
  logsErrors := true
  servers := fun _ => .ok ["a".toList]
  answers := [
    .reserve ⟨0, [], []⟩ ⟨true, some "u".toList⟩,
    .distribute ⟨0, [], []⟩ ⟨0, [], "warning".toList, some
      ⟨"/tmp/1/a.c.o".toList, CompressionType.NONE, "code".toList⟩⟩]
  outfile := ⟨true, none⟩

example : (main plainWorld "cc".toList (table ["-c", "a.c"])).done = [
    .process "/usr/bin/cc".toList (table ["a.c", "-E"]) [],
    .query "cc".toList, .reserve "a".toList,
    .distribute "a".toList ⟨"u".toList, "cc".toList,
      ⟨"a.c".toList, CompressionType.NONE, "int a;".toList⟩, "/".toList,
      table ["-c"]⟩,
    .write "a.o".toList "code".toList, .cout "warning".toList] := by
  decide +kernel

end Distplusplus.Client.Main
