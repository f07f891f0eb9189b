/-
The messages of the protocol (`distplusplus.proto`), gRPC's status, and the
unit of the clocks.

Only fields some modelled function reads or writes are here. An enum field
of an open proto3 message is its 32-bit value.

A server ends a call with one of the named status codes; a client gets the
peer's number as it came, so it need not be one of them. `mapGRPCStatus`
throws on such a number.
-/
import Distplusplus.Common.Compression
import Distplusplus.Common.Constants

namespace Distplusplus.Common

open Lib

-- ================================================================== gRPC

/-- `grpc::StatusCode`, as `mapGRPCStatus` lists it. -/
inductive StatusCode where
  | DO_NOT_USE
  | OK
  | CANCELLED
  | UNKNOWN
  | INVALID_ARGUMENT
  | DEADLINE_EXCEEDED
  | NOT_FOUND
  | ALREADY_EXISTS
  | PERMISSION_DENIED
  | RESOURCE_EXHAUSTED
  | FAILED_PRECONDITION
  | ABORTED
  | OUT_OF_RANGE
  | UNIMPLEMENTED
  | INTERNAL
  | UNAVAILABLE
  | DATA_LOSS
  | UNAUTHENTICATED
  deriving DecidableEq, Repr

/-- The number of a status code on the wire. -/
def StatusCode.number : StatusCode → Int32
  | .DO_NOT_USE => -1
  | .OK => 0
  | .CANCELLED => 1
  | .UNKNOWN => 2
  | .INVALID_ARGUMENT => 3
  | .DEADLINE_EXCEEDED => 4
  | .NOT_FOUND => 5
  | .ALREADY_EXISTS => 6
  | .PERMISSION_DENIED => 7
  | .RESOURCE_EXHAUSTED => 8
  | .FAILED_PRECONDITION => 9
  | .ABORTED => 10
  | .OUT_OF_RANGE => 11
  | .UNIMPLEMENTED => 12
  | .INTERNAL => 13
  | .UNAVAILABLE => 14
  | .DATA_LOSS => 15
  | .UNAUTHENTICATED => 16

theorem StatusCode.number_eq_zero {code : StatusCode} :
    code.number = 0 ↔ code = .OK := by
  cases code <;> decide

/-- `grpc::Status`: code, `error_message` and `error_details`. -/
structure StatusOf (Code : Type) where
  code : Code
  message : Str
  details : Str
  deriving DecidableEq, Repr

/-- The status a server ends a call with. -/
abbrev Status := StatusOf StatusCode

/-- The status of a call as the peer sent it. -/
abbrev ReceivedStatus := StatusOf Int32

/-- `grpc::Status::OK`. -/
def Status.ok : Status := ⟨.OK, [], []⟩

/-- A server's status as the client receives it. -/
def received (status : Status) : ReceivedStatus where
  code := status.code.number
  message := status.message
  details := status.details

/-- The cases of `mapGRPCStatus`, in its order. -/
def statusNames : List (Int32 × String) := [
  (-1, "DO_NOT_USE"), (0, "OK"), (1, "CANCELLED"), (2, "UNKNOWN"),
  (3, "INVALID_ARGUMENT"), (4, "DEADLINE_EXCEEDED"), (5, "NOT_FOUND"),
  (6, "ALREADY_EXISTS"), (7, "PERMISSION_DENIED"),
  (8, "RESOURCE_EXHAUSTED"), (9, "FAILED_PRECONDITION"), (10, "ABORTED"),
  (11, "OUT_OF_RANGE"), (12, "UNIMPLEMENTED"), (13, "INTERNAL"),
  (14, "UNAVAILABLE"), (15, "DATA_LOSS"), (16, "UNAUTHENTICATED")]

/-- `mapGRPCStatus`. -/
def mapGRPCStatus (status : Int32) : Except Exception Str :=
  match statusNames.lookup status with
  | some name => .ok name.toList
  | none => .error (.runtimeError
      ("unhandled status in mapGRPCStatus ".toList ++
        toDecimal status.toInt))

/-- A number that `mapGRPCStatus` has a name for. -/
abbrev Listed (code : Int32) : Prop := code ∈ statusNames.map Prod.fst

theorem StatusCode.listed (code : StatusCode) : Listed code.number := by
  cases code <;> decide

theorem mapGRPCStatus_listed {code : Int32} (h : Listed code) :
    ∃ name, mapGRPCStatus code = .ok name := by
  have htab : ((statusNames.map Prod.fst).all fun c =>
      (statusNames.lookup c).isSome) = true := by decide
  obtain ⟨name, hname⟩ := Option.isSome_iff_exists.mp
    (List.all_eq_true.mp htab code h)
  exact ⟨name.toList, by rw [mapGRPCStatus, hname]⟩

theorem mapGRPCStatus_unlisted {code : Int32} (h : ¬Listed code) :
    ∃ e, mapGRPCStatus code = .error e := by
  have hnone : statusNames.lookup code = none := by
    rw [List.lookup_eq_none_iff]
    intro p hp
    rw [bne_iff_ne]
    rintro rfl
    exact h (List.mem_map_of_mem hp)
  exact ⟨_, by rw [mapGRPCStatus, hnone]⟩

/-- A log record that names the status is not written, or can be. -/
abbrev Loggable (logged : Bool) (status : ReceivedStatus) : Prop :=
  logged = true → Listed status.code

/-- An `OK` can always be logged. -/
theorem loggable_ok {logged : Bool} {status : ReceivedStatus}
    (h : status.code = 0) : Loggable logged status := by
  intro _
  rw [h]
  decide

-- ================================================================= clocks

/-- Clock ticks in a second: `system_clock` counts nanoseconds. -/
def second : Int := 1000000000

-- ============================================================== messages

inductive CompilerType where
  | UNKNOWN
  | clang
  | gcc
  deriving DecidableEq, Repr

structure File where
  name : Str
  compressionType : CompressionType
  content : Str
  deriving DecidableEq, Repr

structure CompileRequest where
  uuid : Str
  compiler : Str
  inputFile : File
  cwd : Str
  argument : List Arg
  deriving DecidableEq, Repr

structure CompileAnswer where
  returnCode : Int32
  stdout : Str
  stderr : Str
  outputFile : Option File
  deriving DecidableEq, Repr

structure ReservationAnswer where
  success : Bool
  uuid : Option Str
  deriving DecidableEq, Repr

structure ServerQuery where
  compiler : Str
  desiredCompressionType : CompressionType
  deriving DecidableEq, Repr

structure QueryAnswer where
  compilerSupported : Bool
  compressionTypeSupported : Bool
  currentLoad : UInt32
  maxJobs : UInt64
  deriving DecidableEq, Repr

end Distplusplus.Common
