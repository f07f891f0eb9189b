/-
One compile, seen through a server and seen locally.

The compiler's result goes its way in three pieces: its return code and
what it wrote on either stream. On the local way all three arrive where
they belong. On the remote way the server captures them and the answer
carries them faithfully (`Server.answer_eq`), and then the client prints
both streams on its standard output, messages first. So the two ways look
the same exactly when the compiler had nothing to say on standard error.
-/
import Distplusplus.Client.Console
import Distplusplus.Client.Proofs.Masquerade
import Distplusplus.Proofs.Output

namespace Distplusplus

open Lib Common Client

variable {host : Server.Host} {request : CompileRequest}
variable {input output : Tempfile} {process : Server.Process}
variable {answer : CompileAnswer} {status : ReceivedStatus}
variable {lib : Option Zstd} {outfile : Outfile} {remote : Remote}
variable {logsErrors : Bool}
variable {m : Local} {fallback : Bool} {cin cin' program : Str}
variable {argv args : List Arg} {run : Child}

-- ============================================================ the remote way

/-- The messages and the return code of an answer reach the end of
`func`. -/
theorem funcEnd_ok
    (h : funcEnd lib outfile logsErrors status answer = .ok remote) :
    remote.cout = answer.stderr ++ answer.stdout ∧
      remote.returnCode = answer.returnCode := by
  simp only [funcEnd, concluded, distributed] at h
  split at h
  case h_1 => cases h
  case h_2 answer' hanswer =>
      have hsame : answer' = answer := by
        split at hanswer
        · cases hanswer
          rfl
        · split at hanswer
          · split at hanswer <;> cases hanswer
          · cases hanswer
      subst hsame
      simp only [receive] at h
      split at h
      case h_1 => cases h
      case h_2 result hresult =>
          split at hresult
          · cases hresult
          · cases hresult
            cases h
            exact ⟨rfl, rfl⟩

/-- What the caller sees of a compile that went through a server. -/
theorem console_remote
    (hanswer : Server.distributeStep host request
      (.answer input output process) = .leave (.ret .ok (some answer)))
    (hfunc : funcEnd lib outfile logsErrors status answer = .ok remote) :
    (mainEnd m fallback cin argv (funcEnd lib outfile logsErrors status
        answer)).console run =
      some ⟨process.stderr ++ process.stdout, [], process.returnCode⟩ := by
  obtain ⟨data, -, rfl⟩ := Server.answer_eq hanswer
  obtain ⟨hcout, hcode⟩ := funcEnd_ok hfunc
  rw [hfunc]
  simp only [mainEnd, Ending.console, printRemote, hcout, hcode]

-- ============================================================= the local way

/-- What the caller sees of a compile in the fallback. -/
theorem console_local {localInvocation : ProcessHelper}
    (hstarts : runFallback m fallback cin argv = .starts program args cin')
    (hrun : run program args cin' = .ok localInvocation) :
    (mainEnd m fallback cin argv (.error .fallbackSignal)).console run =
      some ⟨localInvocation.stdout, localInvocation.stderr,
        localInvocation.returnCode⟩ := by
  simp only [mainEnd, Ending.console, hstarts, Fallback.console, hrun,
    printLocal]

-- ============================================================ the theorem

/-- Let a compiler end in the same way on a server and locally. A client
that got the server's answer and one that fell back look the same to their
callers exactly when there is nothing on the compiler's standard error. -/
theorem same_console_iff {asserts : Bool} {child : Child}
    (hanswer : Server.distributeStep host request
      (.answer input output process) = .leave (.ret .ok (some answer)))
    (hfunc : funcEnd lib outfile logsErrors status answer = .ok remote)
    (hstarts : runFallback m fallback cin argv = .starts program args cin')
    (hrun : processHelper m asserts child program args cin' =
      .ok ⟨process.returnCode, process.stdout, process.stderr⟩) :
    (mainEnd m fallback cin argv (funcEnd lib outfile logsErrors status
        answer)).console (processHelper m asserts child) =
      (mainEnd m fallback cin argv (.error .fallbackSignal)).console
        (processHelper m asserts child) ↔
      process.stderr = [] := by
  rw [console_remote hanswer hfunc, console_local hstarts hrun]
  constructor
  · intro h
    injection h with h
    injection h with _ hcerr
    exact hcerr.symm
  · intro h
    rw [h, List.nil_append]

/-- A compile without messages. -/
theorem same_console_silent :
    (mainEnd unmasked true [] (table ["gcc", "-c"])
        (.ok ⟨some "code".toList, [], [], 0⟩)).console
          (processHelper unmasked true fun _ _ _ => .ok ⟨0, [], []⟩) =
      (mainEnd unmasked true [] (table ["gcc", "-c"])
        (.error .fallbackSignal)).console
          (processHelper unmasked true fun _ _ _ => .ok ⟨0, [], []⟩) := by
  have hanswer : Server.distributeStep Server.plainHost
      (Server.plainRequest []) (.answer (tempfile "a.c".toList)
        (tempfile "a.c.o".toList) ⟨0, [], [], "code".toList, ["a.c".toList],
          ["a.c.o".toList]⟩) =
      .leave (.ret .ok (some ⟨0, [], [], some
        ⟨(tempfile "a.c.o".toList).path, CompressionType.NONE,
          "code".toList⟩⟩)) := rfl
  have hfunc : funcEnd none ⟨true, none⟩ false ⟨0, [], []⟩ ⟨0, [], [], some
      ⟨(tempfile "a.c.o".toList).path, CompressionType.NONE,
        "code".toList⟩⟩ = .ok ⟨some "code".toList, [], [], 0⟩ := rfl
  have hstarts : runFallback unmasked true [] (table ["gcc", "-c"]) =
      .starts "/usr/bin/gcc".toList (table ["-c"]) [] := by decide +kernel
  exact (same_console_iff hanswer hfunc hstarts rfl).mpr rfl

/-- A warning comes out on the other stream when a server compiles. -/
theorem warning_on_cout :
    ∃ answer, Server.distributeStep Server.plainHost
        (Server.plainRequest []) (.answer (tempfile "a.c".toList)
          (tempfile "a.c.o".toList) ⟨0, [], "warning".toList,
            "code".toList, ["a.c".toList], ["a.c.o".toList]⟩) =
        .leave (.ret .ok (some answer)) ∧
      (mainEnd unmasked true [] (table ["gcc", "-c"])
        (funcEnd none ⟨true, none⟩ false ⟨0, [], []⟩ answer)).console
          (processHelper unmasked true fun _ _ _ =>
            .ok ⟨0, [], "warning".toList⟩) =
        some ⟨"warning".toList, [], 0⟩ ∧
      (mainEnd unmasked true [] (table ["gcc", "-c"])
        (.error .fallbackSignal)).console
          (processHelper unmasked true fun _ _ _ =>
            .ok ⟨0, [], "warning".toList⟩) =
        some ⟨[], "warning".toList, 0⟩ := by
  refine ⟨_, rfl, rfl, ?_⟩
  have hstarts : runFallback unmasked true [] (table ["gcc", "-c"]) =
      .starts "/usr/bin/gcc".toList (table ["-c"]) [] := by decide +kernel
  have hrun : processHelper unmasked true
      (fun _ _ _ => .ok ⟨0, [], "warning".toList⟩) "/usr/bin/gcc".toList
      (table ["-c"]) [] = .ok ⟨0, [], "warning".toList⟩ := rfl
  exact console_local hstarts hrun

end Distplusplus
