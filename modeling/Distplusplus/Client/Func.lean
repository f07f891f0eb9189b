/-
What the client makes of a parsed command line (`client/main.cpp`, `func`,
and the request of `Client::send`).

Two commands come from one argument list: the local preprocessor run, with
the input file and `-E` at its end, and the remote compilation, with the
mode option in their place. `DISTPLUSPLUS_BUILD_TARGET` is a macro the
build defines, so it is a parameter.
-/
import Distplusplus.Client.Fallback
import Distplusplus.Common.Protocol

namespace Distplusplus.Client

open Lib Common

/-- `compiler.find(part) != npos`. -/
def contains : Str → Str → Bool
  | [], part => part.isEmpty
  | c :: text, part => part.isPrefixOf (c :: text) || contains text part

/-- `mapCompiler`. -/
def mapCompiler (compiler : Str) : CompilerType :=
  if contains compiler "clang".toList then .clang
  else if contains compiler "gcc".toList then .gcc
  -- This must come AFTER clang since clang++ evaluates to g++
  else if contains compiler "g++".toList then .gcc
  else .UNKNOWN

/-- The target `func` adds for clang when none was parsed. -/
def addedTarget (compilerType : CompilerType) (buildTarget : Arg)
    (p : Parser) : List (Arg × Arg) :=
  if compilerType = .clang ∧ p.target = none then
    [(Opt.target, buildTarget)] else []

/-- The arguments both commands share. -/
def commandArgs (compilerType : CompilerType) (buildTarget : Arg)
    (p : Parser) : List Arg :=
  p.args ++ (addedTarget compilerType buildTarget p).flatMap
    fun t => [t.1, t.2]

/-- The compiler name of both commands: an unspecific gcc gets the build
target in front. -/
def commandCompiler (compilerType : CompilerType) (buildTarget : Arg)
    (compilerName : Str) : Str :=
  if compilerType = .gcc ∧ ("g++".toList.isPrefixOf compilerName ∨
      "gcc".toList.isPrefixOf compilerName) then
    buildTarget ++ "-".toList ++ compilerName
  else compilerName

/-- `compilerName`, for the compiler argument of `argv`. -/
def compilerName (buildTarget : Arg) (compiler : Arg) : Str :=
  commandCompiler (mapCompiler (stem compiler)) buildTarget (stem compiler)

/-- The program that preprocesses. -/
def preprocessor (m : Local) (buildTarget : Arg) (compiler : Arg) : Str :=
  searchPath m (compilerName buildTarget compiler)

/-- The preprocessor's arguments. -/
def preprocessorArgs (compilerType : CompilerType) (buildTarget : Arg)
    (p : Parser) : List Arg :=
  commandArgs compilerType buildTarget p ++ [cstr p.infile, Opt.E]

/-- The arguments of the request. -/
def requestArgs (compilerType : CompilerType) (buildTarget : Arg)
    (p : Parser) : List Arg :=
  commandArgs compilerType buildTarget p ++ [p.modeArg]

/-- The request `Client::send` sends for a parsed command line. -/
def compileRequest (compilerName : Str) (buildTarget : Arg) (p : Parser)
    (uuid : Str) (compressionType : CompressionType) (content cwd : Str) :
    CompileRequest :=
  let compilerType := mapCompiler compilerName
  { uuid := uuid
    compiler := commandCompiler compilerType buildTarget compilerName
    inputFile := ⟨filename p.infile, compressionType, content⟩
    cwd := cwd
    argument := requestArgs compilerType buildTarget p }

end Distplusplus.Client
