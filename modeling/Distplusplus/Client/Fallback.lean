/-
The local fallback (`client/main.cpp`, the handler of `FallbackSignal`).

`main` has to find the real compiler, which may go by the same name as the
client itself: a masquerade directory holds links to the client under the
names of compilers. `resolve` is how it looks: through `PATH` for a
masquerade path, through `PATH` for a bare name, and otherwise the path as
it was given.

`Local` is what the handler finds on the machine. `PATH` lists directories,
which are not regular files, and no file has the empty path; `directory`
is the directory that holds a path's entry, links resolved.
-/
import Distplusplus.Client.Parser

namespace Distplusplus.Client

open Lib Common

-- ============================================================= environment

/-- The machine the client runs on. -/
structure Local where
  path : List Str
  status : Str → FileStatus
  access : Str → Bool
  directory : Str → Str
  directories : ∀ dir ∈ path, status dir ≠ .regular
  noName : status [] = .notFound

/-- A regular file the user may execute. -/
def Local.runs (m : Local) (file : Str) : Bool :=
  decide (m.status file = .regular) && m.access file

/-- The loop of `boost::process::search_path` over `PATH`. -/
def searchIn (m : Local) (name : Str) : List Str → Str
  | [] => []
  | dir :: path =>
      if m.runs (join dir name) then join dir name
      else searchIn m name path

/-- `boost::process::search_path`. -/
def searchPath (m : Local) (name : Str) : Str := searchIn m name m.path

-- ============================================================ the handler

/-- How the handler ends, or the program it starts. -/
inductive Fallback where
  | disabled
  | notFound (message : Str)
  | starts (program : Str) (args : List Arg) (cin : Str)
  | filesystemError (errno : Nat)
  | outOfRange
  deriving DecidableEq, Repr

/-- The directories of links to the client. -/
def masquerades : List Str :=
  table ["/usr/libexec/distplusplus", "/usr/lib/distcc"]

/-- The position of the compiler in `argv`. -/
def compilerPos (argv0 : Arg) : Nat :=
  if samePath (stem argv0) "distplusplus".toList then 1 else 0

/-- The program that stands for the compiler. -/
def resolve (m : Local) (pos : Nat) (compiler : Arg) : Str :=
  -- otherwise we would recurse on ourself
  let compilerPath :=
    if pos = 0 ∧ startsWithAny masquerades compiler then
      searchPath m (stem compiler)
    else compiler
  if samePath (stem compilerPath) compilerPath then
    searchPath m (stem compilerPath)
  else compilerPath

/-- The handler: `fallback` is `config.fallback()`, `cin` what there is to
read on standard input. -/
def runFallback (m : Local) (fallback : Bool) (cin : Str) :
    List Arg → Fallback
  | [] => .outOfRange
  | argv0 :: args =>
      if !fallback then .disabled
      else
        match (argv0 :: args)[compilerPos argv0]? with
        | none => .outOfRange
        | some compiler =>
            let compilerPath := resolve m (compilerPos argv0) compiler
            match m.status compilerPath with
            | .error errno => .filesystemError errno
            | .notFound => .notFound ("specified compiler ".toList ++
                compiler ++ " not found".toList)
            | _ => .starts compilerPath
                ((argv0 :: args).drop (compilerPos argv0 + 1)) cin

end Distplusplus.Client
