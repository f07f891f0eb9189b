/-
From the server's answer to the end of the client (`client/client.cpp`, the
tail of `Client::send`; `client/main.cpp`, the tail of `func`, and `main`).

A call ends in three ways: it returns, it throws `FallbackSignal`, which
`main` turns into a local compile, or it throws something else, which
nothing catches. `Thrown` keeps the last two apart.

The text of a log record is computed only when the record passes the
severity filter, and `mapGRPCStatus` is called in one.
-/
import Distplusplus.Client.Fallback
import Distplusplus.Common.Protocol
import Mathlib.Data.List.TakeDrop

namespace Distplusplus.Client

open Lib Common

-- ============================================================ the status

/-- What leaves a function other than by returning. -/
inductive Thrown where
  | fallbackSignal
  | exception (e : Exception)
  deriving DecidableEq, Repr

/-- The end of `Client::send`: what it makes of the result of `Distribute`.
`logsErrors` says whether records of severity `error` pass the filter. -/
def distributed (logsErrors : Bool) (status : ReceivedStatus)
    (answer : CompileAnswer) : Except Thrown CompileAnswer :=
  if status.code = 0 then .ok answer
  else if logsErrors then
    match mapGRPCStatus status.code with
    | .error e => .error (.exception e)
    | .ok _ => .error .fallbackSignal
  else .error .fallbackSignal

-- ============================================================ the answer

/-- `answer.outputfile()`: an absent message field reads as its default. -/
def outputFile (answer : CompileAnswer) : File :=
  answer.outputFile.getD ⟨[], CompressionType.NONE, []⟩

/-- The path `parser.outfile()` as a stream finds it: whether it can be
opened for writing, and how many bytes it takes before a write fails, if
one does. Neither failure is noticed. -/
structure Outfile where
  opens : Bool
  room : Option Nat
  deriving DecidableEq, Repr

/-- What the file holds once the data was streamed into it, if it was
opened: opening it truncates. -/
def Outfile.write (outfile : Outfile) (data : Str) : Option Str :=
  if outfile.opens then
    some (match outfile.room with
      | none => data
      | some n => data.take n)
  else none

/-- The data goes to the file as a whole. -/
def Outfile.Takes (outfile : Outfile) (data : Str) : Prop :=
  outfile.opens = true ∧ ∀ n, outfile.room = some n → data.length ≤ n

theorem Outfile.write_eq_some_iff {outfile : Outfile} {data : Str} :
    outfile.write data = some data ↔ outfile.Takes data := by
  unfold Outfile.write Outfile.Takes
  cases outfile.opens with
  | false => simp
  | true =>
      cases outfile.room with
      | none => simp
      | some n => simp

theorem Outfile.write_eq_none_iff {outfile : Outfile} {data : Str} :
    outfile.write data = none ↔ outfile.opens = false := by
  unfold Outfile.write
  cases outfile.opens with
  | false => simp
  | true => simp

/-- What becomes of `parser.outfile()`: its content, if it was opened. -/
def writeOutput (lib : Option Zstd) (outfile : Outfile)
    (answer : CompileAnswer) : Except Exception (Option Str) :=
  if (outputFile answer).content ≠ [] then
    match decompressor lib (outputFile answer).compressionType
        (outputFile answer).content with
    | .error e => .error e
    | .ok data => .ok (outfile.write data)
  else .ok none

/-- What a remote compilation leaves behind locally. -/
structure Remote where
  written : Option Str
  stderr : Str
  stdout : Str
  returnCode : Int32
  deriving DecidableEq, Repr

/-- Both streams of the compiler go to `cout`, its messages first. -/
def Remote.cout (remote : Remote) : Str := remote.stderr ++ remote.stdout

/-- The end of `func`: the output file, the compiler's messages and its
return code. -/
def receive (lib : Option Zstd) (outfile : Outfile)
    (answer : CompileAnswer) : Except Exception Remote :=
  match writeOutput lib outfile answer with
  | .error e => .error e
  | .ok written =>
      .ok ⟨written, answer.stderr, answer.stdout, answer.returnCode⟩

/-- `func` from the end of `send` on. -/
def concluded (lib : Option Zstd) (outfile : Outfile) :
    Except Thrown CompileAnswer → Except Thrown Remote
  | .error e => .error e
  | .ok answer =>
      match receive lib outfile answer with
      | .error e => .error (.exception e)
      | .ok remote => .ok remote

/-- `func` from the result of `Distribute` on. -/
def funcEnd (lib : Option Zstd) (outfile : Outfile) (logsErrors : Bool)
    (status : ReceivedStatus) (answer : CompileAnswer) :
    Except Thrown Remote :=
  concluded lib outfile (distributed logsErrors status answer)

-- ================================================================== main

/-- How the client ends: with the remote result, in the fallback, or by an
exception that leaves `main`. -/
inductive Ending where
  | remote (result : Remote)
  | fallback (result : Fallback)
  | terminate (e : Exception)
  deriving DecidableEq, Repr

/-- The `try` block of `main`, given how `func` ends: only
`FallbackSignal` is caught. -/
def mainEnd (m : Local) (fallback : Bool) (cin : Str) (argv : List Arg) :
    Except Thrown Remote → Ending
  | .ok remote => .remote remote
  | .error .fallbackSignal => .fallback (runFallback m fallback cin argv)
  | .error (.exception e) => .terminate e

end Distplusplus.Client
