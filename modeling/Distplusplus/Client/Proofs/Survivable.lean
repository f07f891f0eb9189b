/-
Which answers the client survives.

The decompressor throws standard exceptions, and so does the text of the
log record for a failed call; `main` catches neither. Otherwise an answer is
taken over, if the disk takes its output, or the handler is asked for a
local compile, which it may be unable to start.

- `Survives`: what a surviving client has done.
- `Survivable`: when it survives, in terms of the answer and the machine.
- `survives_iff`: that this is exact.
-/
import Distplusplus.Client.Console
import Distplusplus.Client.Proofs.Masquerade

namespace Distplusplus.Client

open Lib Common

variable {lib : Option Zstd} {outfile : Outfile} {logsErrors : Bool}
variable {status : ReceivedStatus} {answer : CompileAnswer}
variable {m : Local} {asserts fallback : Bool} {child : Child}
variable {program cin : Str} {args argv : List Arg}

/-- The remote result is the answer's: its return code, and its output
decoded and written, if there is any. -/
def TakenOver (lib : Option Zstd) (answer : CompileAnswer)
    (result : Remote) : Prop :=
  result.returnCode = answer.returnCode ∧
    if (outputFile answer).content = [] then result.written = none
    else ∃ data, decompressor lib (outputFile answer).compressionType
      (outputFile answer).content = .ok data ∧ result.written = some data

/-- The client has taken the answer over, or run the compiler locally. -/
def Survives (lib : Option Zstd) (answer : CompileAnswer) (run : Child)
    (ending : Ending) : Prop :=
  (∃ result, ending = .remote result ∧ TakenOver lib answer result) ∨
    ∃ program args cin localInvocation,
      ending = .fallback (.starts program args cin) ∧
      run program args cin = .ok localInvocation

/-- What the data decodes to: itself, if it is not compressed, and for zstd
data what the library makes of it. -/
def Decodes (lib : Option Zstd) (file : File) (data : Str) : Prop :=
  file.compressionType = CompressionType.NONE ∧ data = file.content ∨
    file.compressionType = CompressionType.zstd ∧
      ∃ z, lib = some z ∧ z.decompress file.content = .ok data

/-- The program is there, `ProcessHelper` does not object to it, and it can
be run. -/
structure Runnable (m : Local) (asserts : Bool) (child : Child)
    (program : Str) (args : List Arg) (cin : Str) : Prop where
  present : m.Present program
  shaped : asserts = true →
    filename program ≠ [] ∧ m.status program = .regular
  runs : ∃ localInvocation, child program args cin = .ok localInvocation

/-- A compile in the fallback: it is enabled, and what the command line is
resolved to can be run. -/
def CompilesLocally (m : Local) (asserts : Bool) (child : Child)
    (fallback : Bool) (cin : Str) : List Arg → Prop
  | [] => False
  | argv0 :: args => fallback = true ∧ ∃ compiler,
      (argv0 :: args)[compilerPos argv0]? = some compiler ∧
      Runnable m asserts child (resolve m (compilerPos argv0) compiler)
        ((argv0 :: args).drop (compilerPos argv0 + 1)) cin

/-- A successful call brings no output, or output that can be decoded and
that the disk takes; a failed one has a status that can be logged, or is
not logged, and there is a compiler to be run locally. -/
def Survivable (lib : Option Zstd) (outfile : Outfile) (logsErrors : Bool)
    (status : ReceivedStatus) (answer : CompileAnswer)
    (locally : Prop) : Prop :=
  if status.code = 0 then
    (outputFile answer).content ≠ [] →
      ∃ data, Decodes lib (outputFile answer) data ∧ outfile.Takes data
  else
    Loggable logsErrors status ∧ locally

-- ============================================================ the pieces

/-- The decompressor decodes. -/
theorem decompressor_ok_iff {file : File} {data : Str} :
    decompressor lib file.compressionType file.content = .ok data ↔
      Decodes lib file data := by
  have hne : CompressionType.NONE ≠ CompressionType.zstd := by decide
  unfold decompressor Decodes
  by_cases hN : file.compressionType = CompressionType.NONE
  · rw [if_pos hN, Except.ok.injEq, hN]
    simp [hne, eq_comm]
  · rw [if_neg hN]
    by_cases hz : file.compressionType = CompressionType.zstd
    · rw [if_pos hz]
      cases lib with
      | none => simp [hN]
      | some z => simp [hz, hne.symm]
    · rw [if_neg hz]
      simp [hN, hz]

/-- A failed call ends in the fallback or in the exception of its log
record. -/
theorem distributed_failed (hs : status.code ≠ 0) :
    distributed logsErrors status answer = .error .fallbackSignal ∧
        (Loggable logsErrors status) ∨
      (∃ e, distributed logsErrors status answer = .error (.exception e)) ∧
        ¬(Loggable logsErrors status) := by
  unfold distributed
  rw [if_neg hs]
  cases logsErrors with
  | false => exact .inl ⟨rfl, fun h => by cases h⟩
  | true =>
      rw [if_pos rfl]
      by_cases hlisted : Listed status.code
      · obtain ⟨name, hname⟩ := mapGRPCStatus_listed hlisted
        rw [hname]
        exact .inl ⟨rfl, fun _ => hlisted⟩
      · obtain ⟨e, he⟩ := mapGRPCStatus_unlisted hlisted
        rw [he]
        exact .inr ⟨⟨e, rfl⟩, fun h => hlisted (h rfl)⟩

/-- A received answer is taken over exactly when its output, if any, can be
decoded and written. -/
theorem receive_iff :
    (∃ result, receive lib outfile answer = .ok result ∧
        TakenOver lib answer result) ↔
      ((outputFile answer).content ≠ [] →
        ∃ data, Decodes lib (outputFile answer) data ∧
          outfile.Takes data) := by
  simp only [← decompressor_ok_iff, ← Outfile.write_eq_some_iff]
  unfold receive writeOutput TakenOver
  by_cases hc : (outputFile answer).content = []
  · simp [hc]
  · rw [if_pos hc]
    cases hd : decompressor lib (outputFile answer).compressionType
        (outputFile answer).content with
    | error e => simp [hc]
    | ok data => simp [hc]

/-- A program that is there can be run exactly when `ProcessHelper` runs
it. -/
theorem runnable_iff (hpresent : m.Present program) :
    (∃ localInvocation, processHelper m asserts child program args cin =
        .ok localInvocation) ↔
      Runnable m asserts child program args cin := by
  have hnil : program ≠ [] := by
    rintro rfl
    have hnot := m.noName
    rcases hpresent with h | h
    · exact nomatch hnot.symm.trans h
    · exact nomatch hnot.symm.trans h
  have hsome : (∃ localInvocation, processHelper m asserts child program
        args cin = .ok localInvocation) ↔
      (asserts = true →
        filename program ≠ [] ∧ m.status program = .regular) ∧
      ∃ localInvocation, child program args cin = .ok localInvocation := by
    unfold processHelper checkProgram Local.isRegularFile
    rcases hpresent with h | h <;> cases asserts <;>
      by_cases hname : filename program = [] <;>
      simp [assertAndRaise, h, hname, hnil, bind, Except.bind]
  rw [hsome]
  exact ⟨fun h => ⟨hpresent, h.1, h.2⟩, fun h => ⟨h.shaped, h.runs⟩⟩

/-- The handler runs a compiler exactly when there is one to be run. -/
theorem runFallback_runs_iff :
    (∃ program args cin' localInvocation,
      runFallback m fallback cin argv = .starts program args cin' ∧
      processHelper m asserts child program args cin' =
        .ok localInvocation) ↔
      CompilesLocally m asserts child fallback cin argv := by
  cases argv with
  | nil => simp [runFallback, CompilesLocally]
  | cons argv0 args =>
      rw [CompilesLocally]
      constructor
      · rintro ⟨program, cargs, cin', localInvocation, hstarts, hrun⟩
        cases hc : (argv0 :: args)[compilerPos argv0]? with
        | none =>
            rw [runFallback, hc] at hstarts
            cases fallback <;> cases hstarts
        | some compiler =>
            obtain ⟨hfallback, hpresent, rfl, rfl, rfl⟩ :=
              (runFallback_starts_at hc).mp hstarts
            exact ⟨hfallback, compiler, rfl,
              (runnable_iff hpresent).mp ⟨_, hrun⟩⟩
      · rintro ⟨hfallback, compiler, hc, hrunnable⟩
        obtain ⟨localInvocation, hrun⟩ :=
          (runnable_iff hrunnable.present).mpr hrunnable
        exact ⟨_, _, _, localInvocation, (runFallback_starts_at hc).mpr
          ⟨hfallback, hrunnable.present, rfl, rfl, rfl⟩, hrun⟩

-- ============================================================ the theorem

/-- The client survives an answer exactly when the answer is survivable. -/
theorem survives_iff (m : Local) (asserts : Bool) (child : Child)
    (fallback : Bool) (cin : Str) (argv : List Arg) (lib : Option Zstd)
    (outfile : Outfile) (logsErrors : Bool) (status : ReceivedStatus)
    (answer : CompileAnswer) :
    Survives lib answer (processHelper m asserts child)
        (mainEnd m fallback cin argv
          (funcEnd lib outfile logsErrors status answer)) ↔
      Survivable lib outfile logsErrors status answer
        (CompilesLocally m asserts child fallback cin argv) := by
  unfold Survivable Survives funcEnd concluded
  by_cases hs : status.code = 0
  · have hok : distributed logsErrors status answer = .ok answer := if_pos hs
    rw [if_pos hs, hok, ← receive_iff]
    dsimp only
    cases receive lib outfile answer with
    | ok result => simp [mainEnd]
    | error e => simp [mainEnd]
  · rw [if_neg hs, ← runFallback_runs_iff]
    rcases distributed_failed hs with ⟨hd, hcond⟩ | ⟨⟨e, hd⟩, hcond⟩
    · rw [hd]
      constructor
      · rintro (⟨_, heq, -⟩ | ⟨_, _, _, _, heq, hrun⟩)
        · cases heq
        · injection heq with heq
          exact ⟨hcond, _, _, _, _, heq, hrun⟩
      · rintro ⟨-, _, _, _, _, hstarts, hrun⟩
        exact .inr ⟨_, _, _, _, congrArg Ending.fallback hstarts, hrun⟩
    · rw [hd]
      refine ⟨?_, fun h => absurd h.1 hcond⟩
      rintro (⟨_, heq, -⟩ | ⟨_, _, _, _, heq, -⟩)
      · cases heq
      · cases heq

/-- An answer with a compression type of its own, to a client that can
write the output file and compile locally: the exception leaves `main`. -/
theorem answer_terminates :
    mainEnd unmasked true [] (table ["/usr/lib/distcc/gcc", "-c", "a.c"])
        (funcEnd none ⟨true, none⟩ true ⟨0, [], []⟩
          ⟨0, [], [], some ⟨[], 7, "code".toList⟩⟩) =
      .terminate (.invalidArgument ("encountered unknown CompressionType " ++
        "enum value 7 in decompressor").toList) ∧
    ¬Survives none ⟨0, [], [], some ⟨[], 7, "code".toList⟩⟩
      (processHelper unmasked true fun _ _ _ => .ok ⟨0, [], []⟩)
      (mainEnd unmasked true [] (table ["/usr/lib/distcc/gcc", "-c", "a.c"])
        (funcEnd none ⟨true, none⟩ true ⟨0, [], []⟩
          ⟨0, [], [], some ⟨[], 7, "code".toList⟩⟩)) := by
  have hend : mainEnd unmasked true []
      (table ["/usr/lib/distcc/gcc", "-c", "a.c"])
      (funcEnd none ⟨true, none⟩ true ⟨0, [], []⟩
        ⟨0, [], [], some ⟨[], 7, "code".toList⟩⟩) =
      .terminate (.invalidArgument ("encountered unknown CompressionType " ++
        "enum value 7 in decompressor").toList) := by decide +kernel
  refine ⟨hend, ?_⟩
  rw [hend]
  rintro (⟨r, heq, -⟩ | ⟨_, _, _, _, heq, -⟩)
  · cases heq
  · cases heq

end Distplusplus.Client
