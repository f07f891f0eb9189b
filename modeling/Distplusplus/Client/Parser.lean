/-
The client's argument parser (`client/parser.cpp`).

`parseLoop` is the loop of `Parser::parseArgs` with the index replaced by
the rest of the list; `i++` is the second `::` of a pattern. A response
file is read by the same loop one level down (`readArgsFile`), so the loop
takes that reader as a parameter and `parseArgs` ties the knot on the depth
of the stack: a response file that names itself runs out of it.

`FileSystem` is what the two file system calls answer: the kind of a path,
and the text of a readable file.

`Parser` has the members some modelled function reads. The branches of the
loop stand in the source's order; which branch an argument takes depends on
the ones before it.
-/
import Distplusplus.Common.Constants
import Distplusplus.Common.Tempfile
import Distplusplus.Lib.Text

namespace Distplusplus.Client

open Lib Common

-- ============================================================= environment

/-- What `status` says of a path. -/
inductive FileStatus where
  | regular
  | other
  | notFound
  | error (errno : Nat)
  deriving DecidableEq, Repr

/-- The file system as the parser sees it: a path's kind, and the text an
`ifstream` on it yields (nothing when it cannot be opened). -/
structure FileSystem where
  status : Str → FileStatus
  content : Str → Str

/-- A directory with one file. -/
def oneFile (name : Str) : FileSystem :=
  ⟨fun path => if path = name then .regular else .notFound, fun _ => []⟩

/-- A directory with one file, and its text. -/
def oneResponse (name text : Str) : FileSystem :=
  ⟨fun path => if path = name then .regular else .notFound, fun _ => text⟩

/-- The ways out of the parser other than returning. -/
inductive Exn where
  | parserError (message : Str)
  | fallbackSignal
  | filesystemError (errno : Nat)
  | stackOverflow
  deriving DecidableEq, Repr

/-- `std::filesystem::is_regular_file`, the throwing overload. -/
def isRegularFile (fs : FileSystem) (path : Str) : Except Exn Bool :=
  match fs.status (cstr path) with
  | .regular => .ok true
  | .error errno => .error (.filesystemError errno)
  | _ => .ok false

/-- The arguments in a response file: its runs of characters other than
spaces and newlines. -/
def fileArgs (text : Str) : List Arg :=
  (text.splitOnP fun c => c = ' ' || c = '\n').filter (· ≠ [])

/-- The two loops of `Parser::readArgsFile`: lines, and in a line that is
not empty the pieces between spaces that are not empty. -/
def readArgsFile (text : Str) : List Arg :=
  (lines '\n' text).flatMap fun line =>
    if line = [] then []
    else (lines ' ' line).filter (· ≠ [])

/-- They collect the arguments of the file. -/
theorem readArgsFile_eq (text : Str) :
    readArgsFile text = fileArgs text := by
  have hline : ∀ line : Str,
      (if line = [] then [] else (lines ' ' line).filter (· ≠ [])) =
        words (fun c => c = ' ') line := by
    intro line
    rw [filter_lines]
    by_cases hnil : line = []
    · rw [if_pos hnil, hnil]
      rfl
    · rw [if_neg hnil]
  unfold readArgsFile
  simp only [hline]
  exact flatMap_words_lines '\n' _ text

-- ================================================================== Parser

/-- The members of `Parser`. -/
structure Parser where
  args : List Arg
  modeArg : Arg
  infile : Str
  outfile : Str
  target : Option Arg
  canDistribute : Option Bool
  language : Language
  deriving DecidableEq, Repr

/-- A parser before its first argument. -/
def Parser.empty : Parser := ⟨[], [], [], [], none, none, .NONE⟩

/-- `_args.push_back`. -/
def Parser.push (p : Parser) (args : List Arg) : Parser :=
  { p with args := p.args ++ args }

/-- The language an extension stands for. -/
def languageOfExtension (ext : Str) : Language :=
  if ext ∈ inputFileExtensionC then .C
  else if ext ∈ inputFileExtensionCXX then .CXX
  else .NONE

/-- `Parser::checkInputFileCandidate`. -/
def checkInputFileCandidate (file : Arg) (p : Parser) :
    Except Exn Parser :=
  if extension file ∈ inputFileExtension then
    if p.infile ≠ [] then
      .error (.parserError ("multiple input files parsed: ".toList ++
        p.infile ++ " & ".toList ++ file))
    else
      -- language can be overridden with -x
      .ok { p with
        infile := file
        language := if p.language = .NONE then
          languageOfExtension (extension file) else p.language }
  else .ok (p.push [file])

/-- The `-c` / `-S` branch. -/
def modeOption (arg : Arg) (p : Parser) : Parser :=
  { p with
    modeArg := arg
    canDistribute := some (p.canDistribute.getD true) }

/-- The `-x` branch, given its operand. -/
def languageOption (lang : Arg) (p : Parser) : Parser :=
  let p := p.push [Opt.x, lang]
  if lang ∈ xArgsC then { p with language := .C }
  else if lang ∈ xArgsCXX then { p with language := .CXX }
  else { p with canDistribute := some false }

/-- The `-o` branch, given its operand. The message names the option where
it means to name the operand. -/
def outputOption (file : Arg) (p : Parser) : Except Exn Parser :=
  if p.outfile ≠ [] then
    .error (.parserError ("multiple output files parsed: ".toList ++
      p.outfile ++ " & ".toList ++ Opt.o))
  else .ok { p with outfile := file }

/-- The loop of `Parser::parseArgs`. -/
def parseLoop (fs : FileSystem) (read : Str → Parser → Except Exn Parser) :
    List Arg → Parser → Except Exn Parser
  | [], p => .ok p
  | arg :: rest, p =>
      if ' ' ∈ arg then .error .fallbackSignal
      else if noDistribute arg then .error .fallbackSignal
      -- we assume files do not start with -
      else if arg.head? = some '@' then
        match isRegularFile fs arg.tail with
        | .error e => .error e
        | .ok false => .error (.parserError ("argument file: ".toList ++
            arg ++ " doesn't seem to exist".toList))
        | .ok true =>
            match read arg.tail p with
            | .error e => .error e
            | .ok p => parseLoop fs read rest p
      else if arg = Opt.o then
        match rest with
        | [] => .error (.parserError
            "output file specifier is the last argument".toList)
        | file :: rest =>
            match outputOption file p with
            | .error e => .error e
            | .ok p => parseLoop fs read rest p
      else if Opt.o.isPrefixOf arg then
        parseLoop fs read rest { p with outfile := arg.drop 2 }
      else if arg = Opt.c ∨ arg = Opt.S then
        parseLoop fs read rest (modeOption arg p)
      else if arg = Opt.x then
        match rest with
        | [] => .error (.parserError
            "multiArg -x is the last argument".toList)
        | lang :: rest => parseLoop fs read rest (languageOption lang p)
      else if arg = Opt.target then
        match rest with
        | [] => .error (.parserError
            "clang -target is the last argument".toList)
        | target :: rest => parseLoop fs read rest
            { p.push [arg, target] with target := some target }
      else if Opt.targetEq.isPrefixOf arg then
        parseLoop fs read rest
          { p.push [arg] with target := some (arg.drop 9) }
      else if arg ∈ multiArgsCPP then
        match rest with
        | [] => .error (.parserError ("multi argument ".toList ++ arg ++
            " is the last argument".toList))
        | operand :: rest => parseLoop fs read rest (p.push [arg, operand])
      else
        match isRegularFile fs arg with
        | .error e => .error e
        | .ok true =>
            match checkInputFileCandidate arg p with
            | .error e => .error e
            | .ok p => parseLoop fs read rest p
        | .ok false => parseLoop fs read rest (p.push [arg])

/-- `Parser::parseArgs`, with `depth` levels of stack. -/
def parseArgs (fs : FileSystem) :
    Nat → List Arg → Parser → Except Exn Parser
  | 0, _, _ => .error .stackOverflow
  | depth + 1, args, p =>
      parseLoop fs (fun argsFile p =>
        parseArgs fs depth (fileArgs (fs.content (cstr argsFile))) p) args p

/-- What the constructor does after the loop. -/
def finish (p : Parser) : Except Exn Parser :=
  let p := { p with canDistribute := some (p.canDistribute.getD false) }
  let p := if p.infile ≠ [] ∧ filename p.infile = "conftest.c".toList then
    { p with canDistribute := some false } else p
  if p.canDistribute ≠ some true then .ok p
  else if p.infile = [] then .error (.parserError
    "input file not specified or does not exist".toList)
  else
    let p := if p.outfile = [] then
      { p with outfile := stem p.infile ++ ".o".toList } else p
    if p.language = .NONE then
      .error (.parserError "failed to determine language".toList)
    else .ok p

/-- `Parser::Parser`. -/
def parse (fs : FileSystem) (depth : Nat) (args : List Arg) :
    Except Exn Parser :=
  match parseArgs fs depth args Parser.empty with
  | .error e => .error e
  | .ok p => finish p

end Distplusplus.Client
