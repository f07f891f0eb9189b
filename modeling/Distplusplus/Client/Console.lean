/-
What the client's caller sees of it (`client/main.cpp`, the ends of `func`
and `main`; `common/process_helper.cpp`).

That is the bytes on its standard output and on its standard error, and
what `main` returns. Log records are left out, and so are the diagnostics
of the preprocessor, which `func` has printed by then.

`child` is `boost::process::child` run to its end, with both pipes read:
the program's exit code and what it wrote.
-/
import Distplusplus.Client.Answer

namespace Distplusplus.Client

open Lib Common

-- ========================================================= ProcessHelper

/-- A `ProcessHelper` whose process has ended. -/
structure ProcessHelper where
  returnCode : Int32
  stdout : Str
  stderr : Str
  deriving DecidableEq, Repr

/-- `assertAndRaise`, in a build with or without assertions. -/
def assertAndRaise (asserts condition : Bool) (msg : Str) :
    Except Exception Unit :=
  if asserts && !condition then
    .error (.runtimeError ("assertion failed: ".toList ++ msg))
  else .ok ()

/-- `is_regular_file`, which throws where `status` fails. -/
def Local.isRegularFile (m : Local) (path : Str) :
    Except Exception Bool :=
  match m.status path with
  | .regular => .ok true
  | .other => .ok false
  | .notFound => .ok false
  | .error errno => .error (.filesystemError errno)

/-- A program run to its end, or the exception that it cannot be. -/
abbrev Child := Str → List Arg → Str → Except Exception ProcessHelper

/-- The conditions of `ProcessHelper::ProcessHelper`, which are evaluated
whether or not they are asserted. -/
def checkProgram (m : Local) (asserts : Bool) (program : Str) :
    Except Exception Unit := do
  assertAndRaise asserts (program ≠ []) "passed program is empty".toList
  assertAndRaise asserts (filename program ≠ [])
    ("passed program ".toList ++ program ++ " is misshaped".toList)
  let regular ← m.isRegularFile program
  assertAndRaise asserts regular
    ("passed program ".toList ++ program ++ " does not exist".toList)

/-- `ProcessHelper::ProcessHelper`. -/
def processHelper (m : Local) (asserts : Bool) (child : Child) : Child :=
  fun program args cin => do
    checkProgram m asserts program
    child program args cin

-- ================================================================ console

/-- What a client that ends leaves its caller with. -/
structure Console where
  cout : Str
  cerr : Str
  returned : Int32
  deriving DecidableEq, Repr

/-- The end of the handler: the local compiler's messages and its return
code. -/
def printLocal (localInvocation : ProcessHelper) : Console where
  cout := localInvocation.stdout
  cerr := localInvocation.stderr
  returned := localInvocation.returnCode

/-- The end of `func`: everything goes to `cout`. -/
def printRemote (result : Remote) : Console where
  cout := result.cout
  cerr := []
  returned := result.returnCode

/-- What the handler of `FallbackSignal` ends in; `none` is a client that
dies of an exception or a broken bound. -/
def Fallback.console (run : Child) : Fallback → Option Console
  | .disabled => some ⟨[], [], -1⟩
  | .notFound _ => some ⟨[], [], -1⟩
  | .starts program args cin =>
      match run program args cin with
      | .ok localInvocation => some (printLocal localInvocation)
      | .error _ => none
  | .filesystemError _ => none
  | .outOfRange => none

/-- What the caller sees of a client. -/
def Ending.console (run : Child) : Ending → Option Console
  | .remote result => some (printRemote result)
  | .fallback result => result.console run
  | .terminate _ => none

end Distplusplus.Client
