/-
One `Distribute` call past its reservation (`server/server.cpp`).

The body is a chain of checks, each with its own way out, so it is written
as a machine of its own: a `Phase` says where the call is and what it has
computed, and `distributeStep` takes it to the next. The locals that have
destructors (two temporary files and the job-count guard) are part of the
phase: leaving the body destroys the files (`destroyAll`), then the guard
runs (`Phase.leave`), then the call has returned or the process dies
(`Phase.terminate`).

`Host` is what the call finds around it: the two allowlist directories,
the file system, the zstd library, `PATH` and the compiler itself. None of
it is under the server's control, so each call carries its own.

- `PhaseInv`: what the checks behind a phase have established.
- `distribute`: the body run to its end.
-/
import Distplusplus.Common.Protocol
import Distplusplus.Common.Tempfile
import Distplusplus.Server.Parser
import Mathlib.Logic.Function.Iterate

namespace Distplusplus.Server

open Lib Common

-- ============================================================= environment

/-- A directory entry as `checkCompilerAllowed` reads it. -/
structure DirectoryEntry where
  filename : Str
  isSymlink : Bool
  deriving DecidableEq, Repr

/-- What an allowlist directory is found to be. -/
inductive Listing where
  | notDirectory
  | entries (es : List DirectoryEntry)
  | fails (errno : Nat)
  deriving DecidableEq, Repr

/-- What a finished compiler process leaves behind: its results, the
content of the output file, and the names in the two directories. -/
structure Process where
  returnCode : Int32
  stdout : Str
  stderr : Str
  output : Str
  inputDir : List Str
  outputDir : List Str
  deriving DecidableEq, Repr

/-- Everything besides the request that a `Distribute` call reads. `child`
runs a program on its arguments, with the content of the input file. -/
structure Host where
  peer : Str
  distcc : Listing
  libexec : Listing
  zstd : Option Zstd
  compressorFactory : CompressorFactory
  tempDir : Str
  nameMax : Nat
  mkdtempInput : Str → Except Nat Str
  mkdtempOutput : Str → Except Nat Str
  searchPath : Str → Str
  child : Str → List Arg → Str → Except Exception Process

-- ============================================================== validation

/-- `sanitizeFile`. -/
def sanitizeFile (file : File) : Bool :=
  samePath (filename file.name) file.name

/-- `sanitizeRequest`. -/
def sanitizeRequest (request : CompileRequest) : Bool :=
  if !samePath (filename request.compiler) request.compiler then false
  else sanitizeFile request.inputFile

theorem sanitizeFile_iff {file : File} :
    sanitizeFile file = true ↔ '/' ∉ file.name := samePath_filename file.name

theorem sanitizeRequest_iff {request : CompileRequest} :
    sanitizeRequest request = true ↔
      '/' ∉ request.compiler ∧ '/' ∉ request.inputFile.name := by
  rw [← samePath_filename, ← sanitizeFile_iff]
  simp only [sanitizeRequest]
  cases samePath (filename request.compiler) request.compiler <;> simp

/-- One directory of `checkCompilerAllowed`. -/
def listed (compiler : Str) : Listing → Except Exception Bool
  | .notDirectory => .ok false
  | .entries es =>
      .ok (es.any fun file => file.isSymlink && samePath compiler file.filename)
  | .fails errno => .error (.filesystemError errno)

/-- `checkCompilerAllowed`: both directories are always read. -/
def checkCompilerAllowed (host : Host) (compiler : Str) :
    Except Exception Bool :=
  match listed compiler host.distcc with
  | .error e => .error e
  | .ok ret1 =>
      match listed compiler host.libexec with
      | .error e => .error e
      | .ok ret2 => .ok (ret1 || ret2)

/-- `clientIPDelimited`. -/
def delimited (peer : Str) : Str :=
  peer.map fun c => if c = '/' then '-' else c

-- ================================================================== phases

/-- How the body is left: a returned status, the status thrown by the
decompressor's handler, or any other exception. -/
inductive Exit where
  | ret (status : Status) (answer : Option CompileAnswer)
  | throwStatus (status : Status)
  | throw (exception : Exception)
  deriving DecidableEq, Repr

/-- Where a `Distribute` call is. `lookup` is the erasure under the lock;
from `sanitize` to `leave` the job-count guard is armed. `terminate` is the
call on its way into `std::terminate`, with the guard still armed when a
destructor threw. -/
inductive Phase where
  | lookup
  | sanitize
  | allowlist
  | decompress
  | makeInput (data : Str)
  | makeOutput (data : Str) (input : Tempfile)
  | parse (data : Str) (input output : Tempfile)
  | launch (data : Str) (input output : Tempfile) (args : List Arg)
  | answer (input output : Tempfile) (process : Process)
  | leave (exit : Exit)
  | returned (status : Status) (answer : Option CompileAnswer)
  | terminate (armed : Bool)
  deriving DecidableEq, Repr

/-- Destroy the live temporary files, last made first. A destructor that
throws is `std::terminate`. -/
def destroyAll (nameMax : Nat) :
    List (Tempfile × List Str) → Exit → Phase
  | [], exit => .leave exit
  | (file, entries) :: rest, exit =>
      match file.destroy nameMax (some entries) with
      | .ok _ => destroyAll nameMax rest exit
      | .error _ => .terminate true

/-- A file nothing has touched since it was made. -/
def untouched (nameMax : Nat) (file : Tempfile) : Tempfile × List Str :=
  (file, opened nameMax file.name)

/-- The compiler's command line: the filtered arguments, then the server's
own output and input. -/
def compilerArgs (args : List Arg) (input output : Tempfile) : List Arg :=
  args ++ [Opt.o] ++ [cstr output.path] ++ [cstr input.path]

/-- One local step of `Distribute`. -/
def distributeStep (host : Host) (request : CompileRequest) :
    Phase → Phase
  | .lookup => .lookup
  | .sanitize =>
      if !sanitizeRequest request then
        .leave (.ret ⟨.INVALID_ARGUMENT, "protocol violation".toList, []⟩ none)
      else .allowlist
  | .allowlist =>
      match checkCompilerAllowed host request.compiler with
      | .error e => .leave (.throw e)
      | .ok false => .leave (.ret ⟨.INVALID_ARGUMENT,
          "error: compiler ".toList ++ request.compiler ++
            " not in allow list".toList, []⟩ none)
      | .ok true => .decompress
  | .decompress =>
      match decompressor host.zstd request.inputFile.compressionType
          request.inputFile.content with
      | .ok data => .makeInput data
      | .error (.iosFailure what) => .leave (.throwStatus
          ⟨.INVALID_ARGUMENT, "error in decompressor".toList, what⟩)
      | .error e => .leave (.throw e)
  | .makeInput data =>
      match createFileName host.mkdtempInput host.tempDir
          request.inputFile.name (delimited host.peer) with
      | .error e => .leave (.throw e)
      | .ok input => .makeOutput data input
  | .makeOutput data input =>
      match createFileName host.mkdtempOutput host.tempDir
          (request.inputFile.name ++ ".o".toList) (delimited host.peer) with
      | .error e => destroyAll host.nameMax
          [untouched host.nameMax input] (.throw e)
      | .ok output => .parse data input output
  | .parse data input output =>
      match Server.parse request.argument with
      | .error signal => destroyAll host.nameMax
          [untouched host.nameMax output, untouched host.nameMax input]
          (.ret ⟨.INVALID_ARGUMENT,
            "job aborted due to invalid arguments".toList, signal.error⟩
            none)
      | .ok args => .launch data input output args
  | .launch data input output args =>
      match host.child (host.searchPath request.compiler)
          (compilerArgs args input output) data with
      | .error e => destroyAll host.nameMax
          [untouched host.nameMax output, untouched host.nameMax input]
          (.throw e)
      | .ok process => .answer input output process
  | .answer input output process =>
      let files := [(output, process.outputDir), (input, process.inputDir)]
      match compressor host.zstd host.compressorFactory.compressionType
          host.compressorFactory.compressionLevel process.output with
      | .error e => destroyAll host.nameMax files (.throw e)
      | .ok data => destroyAll host.nameMax files
          (.ret Status.ok (some ⟨process.returnCode, process.stdout,
            process.stderr, some ⟨output.path,
              host.compressorFactory.compressionType, data⟩⟩))
  | .leave (.ret status answer) => .returned status answer
  | .leave (.throwStatus status) => .returned status none
  | .leave (.throw _) => .terminate false
  | .returned status answer => .returned status answer
  | .terminate armed => .terminate armed

/-- The body run to its end: it has nine phases to go through. -/
def distribute (host : Host) (request : CompileRequest) : Phase :=
  (distributeStep host request)^[9] .sanitize

/-- A host where everything works: `gcc` is allowed, and compiles. -/
def plainHost : Host where
  peer := "ipv4:127.0.0.1:40000".toList
  distcc := .entries [⟨"gcc".toList, true⟩]
  libexec := .notDirectory
  zstd := none
  compressorFactory := ⟨CompressionType.NONE, 1⟩
  tempDir := "/tmp".toList
  nameMax := 255
  mkdtempInput := fun template => .ok (template.dropLast ++ "1".toList)
  mkdtempOutput := fun template => .ok (template.dropLast ++ "2".toList)
  searchPath := fun compiler => "/usr/bin/".toList ++ compiler
  child := fun _ _ _ =>
    .ok ⟨0, [], [], "code".toList, ["a.c".toList], ["a.c.o".toList]⟩

/-- A request it compiles. -/
def plainRequest (uuid : Str) : CompileRequest where
  uuid := uuid
  compiler := "gcc".toList
  inputFile := ⟨"a.c".toList, CompressionType.NONE, "int a;".toList⟩
  cwd := "/".toList
  argument := ["-c".toList]

example : ∃ answer, distribute plainHost (plainRequest []) =
    .returned Status.ok (some answer) := ⟨_, rfl⟩

-- ===================================================== what a phase knows

/-- The facts the checks behind a phase have established. -/
structure Accepted (host : Host) (request : CompileRequest) : Prop where
  name : sanitizeFile request.inputFile = true
  compiler : samePath (filename request.compiler) request.compiler = true
  allowed : checkCompilerAllowed host request.compiler = .ok true
  decompressed : ∃ data, decompressor host.zstd
    request.inputFile.compressionType request.inputFile.content = .ok data
  parsed : ∃ args, Server.parse request.argument = .ok args

/-- What has been checked when the call is at a phase. -/
def PhaseInv (host : Host) (request : CompileRequest) : Phase → Prop
  | .allowlist => sanitizeRequest request = true
  | .decompress => sanitizeRequest request = true ∧
      checkCompilerAllowed host request.compiler = .ok true
  | .makeInput data | .makeOutput data _ | .parse data _ _ =>
      sanitizeRequest request = true ∧
      checkCompilerAllowed host request.compiler = .ok true ∧
      decompressor host.zstd request.inputFile.compressionType
        request.inputFile.content = .ok data
  | .launch data _ _ args =>
      sanitizeRequest request = true ∧
      checkCompilerAllowed host request.compiler = .ok true ∧
      decompressor host.zstd request.inputFile.compressionType
        request.inputFile.content = .ok data ∧
      Server.parse request.argument = .ok args
  | _ => True

/-- Destroying the files leaves the body one way or the other. -/
theorem destroyAll_cases (nameMax : Nat)
    (files : List (Tempfile × List Str)) (exit : Exit) :
    destroyAll nameMax files exit = .leave exit ∨
      destroyAll nameMax files exit = .terminate true := by
  induction files with
  | nil => exact .inl rfl
  | cons f files ih =>
      obtain ⟨file, entries⟩ := f
      simp only [destroyAll]
      split
      · exact ih
      · exact .inr rfl

theorem PhaseInv.destroyAll {host : Host} {request : CompileRequest}
    (nameMax : Nat) (files : List (Tempfile × List Str)) (exit : Exit) :
    PhaseInv host request (destroyAll nameMax files exit) := by
  rcases destroyAll_cases nameMax files exit with h | h <;>
    rw [h] <;> trivial

/-- Each local step establishes the next phase's facts. -/
theorem PhaseInv.step {host : Host} {request : CompileRequest}
    {phase : Phase} (h : PhaseInv host request phase) :
    PhaseInv host request (distributeStep host request phase) := by
  cases phase with
  | lookup => trivial
  | sanitize =>
      simp only [distributeStep]
      cases hs : sanitizeRequest request with
      | false => trivial
      | true => exact hs
  | allowlist =>
      simp only [distributeStep]
      split
      · trivial
      · trivial
      · exact ⟨h, ‹_›⟩
  | decompress =>
      simp only [distributeStep]
      split
      · exact ⟨h.1, h.2, ‹_›⟩
      · trivial
      · trivial
  | makeInput data =>
      simp only [distributeStep]
      split
      · trivial
      · exact h
  | makeOutput data input =>
      simp only [distributeStep]
      split
      · exact PhaseInv.destroyAll ..
      · exact h
  | parse data input output =>
      simp only [distributeStep]
      split
      · exact PhaseInv.destroyAll ..
      · exact ⟨h.1, h.2.1, h.2.2, ‹_›⟩
  | launch data input output args =>
      simp only [distributeStep]
      split
      · exact PhaseInv.destroyAll ..
      · trivial
  | answer input output process =>
      simp only [distributeStep]
      split <;> exact PhaseInv.destroyAll ..
  | leave exit => cases exit <;> trivial
  | returned status answer => trivial
  | terminate armed => trivial

/-- A call about to launch the compiler has had its request accepted by
every check. -/
theorem PhaseInv.accepted {host : Host} {request : CompileRequest}
    {data : Str} {input output : Tempfile} {args : List Arg}
    (h : PhaseInv host request (.launch data input output args)) :
    Accepted host request := by
  obtain ⟨hs, ha, hd, hp⟩ := h
  obtain ⟨hcompiler, hname⟩ := sanitizeRequest_iff.mp hs
  exact ⟨sanitizeFile_iff.mpr hname, (samePath_filename _).mpr hcompiler, ha,
    ⟨_, hd⟩, ⟨_, hp⟩⟩

end Distplusplus.Server
