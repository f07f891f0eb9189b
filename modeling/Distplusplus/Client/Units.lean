/-
The client's command line as a list of units.

The parser's loop takes an option and its operand together, reads response
files in place, and otherwise one argument at a time. `expand` is the list
of units it goes through: the command line cut under `takesOperand`, with
each response file replaced by its own units.

- `effect`: what one unit does to the parser.
- `Reads`: a run over units in which each was accepted. What it leaves
  behind is a matter of the units alone; that a parser which returns has run
  over its expansion is a matter of the loop.
-/
import Distplusplus.Client.Parser
import Distplusplus.Lib.Units

namespace Distplusplus.Client

open Lib Common Piece

variable {fs : FileSystem} {u : Piece Arg} {us vs : List (Piece Arg)}
variable {p q r : Parser}

-- =================================================================== units

/-- The options that take the next argument, whatever it is. -/
def takesOperand (arg : Arg) : Bool :=
  decide (arg = Opt.o) || decide (arg = Opt.x) ||
    decide (arg = Opt.target) || decide (arg ∈ multiArgsCPP)

/-- A single argument that names a regular file with an input extension. -/
def isInputFile (fs : FileSystem) (arg : Arg) : Bool :=
  decide (fs.status (cstr arg) = .regular) &&
    decide (extension arg ∈ inputFileExtension)

/-- What a unit is to the parser, with the part of it that is read. -/
inductive Kind where
  | output (file : Arg)
  | mode
  | language (lang : Arg)
  | target (target : Arg)
  | input
  | other
  deriving DecidableEq, Repr

/-- The kind of a unit, decided in the order of the loop's branches. -/
def kind (fs : FileSystem) : Piece Arg → Kind
  | .single a =>
      if Opt.o.isPrefixOf a then .output (a.drop 2)
      else if a = Opt.c ∨ a = Opt.S then .mode
      else if Opt.targetEq.isPrefixOf a then .target (a.drop 9)
      else if isInputFile fs a then .input
      else .other
  | .pair o x =>
      if o = Opt.o then .output x
      else if o = Opt.x then .language x
      else if o = Opt.target then .target x
      else .other
  | .dangling _ => .other

/-- The units whose tokens the parser passes on. -/
def forwarded (fs : FileSystem) (u : Piece Arg) : Bool :=
  match kind fs u with
  | .output _ | .mode | .input => false
  | .language _ | .target _ | .other => true

/-- What a unit does to the parser. -/
def effect (fs : FileSystem) (u : Piece Arg) (p : Parser) : Parser :=
  match kind fs u with
  | .output file => { p with outfile := file }
  | .mode => modeOption u.head p
  | .language lang => languageOption lang p
  | .target target => { p.push u.tokens with target := some target }
  | .input =>
      { p with
        infile := u.head
        language := if p.language = .NONE then
          languageOfExtension (extension u.head) else p.language }
  | .other => p.push u.tokens

/-- The parser accepts a unit where it stands. -/
structure Legal (fs : FileSystem) (p : Parser) (u : Piece Arg) : Prop where
  wellCut : u.WellCut takesOperand
  distributable : noDistribute u.head = false
  noSpace : ' ' ∉ u.head
  notFile : u.head.head? ≠ some '@'
  oneInput : kind fs u = .input → p.infile = []
  oneOutput : ∀ x, u = .pair Opt.o x → p.outfile = []

/-- A run over units, each accepted where it stands. -/
inductive Reads (fs : FileSystem) :
    List (Piece Arg) → Parser → Parser → Prop
  | nil (p : Parser) : Reads fs [] p p
  | cons {u : Piece Arg} {us : List (Piece Arg)} {p q : Parser}
      (legal : Legal fs p u) (rest : Reads fs us (effect fs u p) q) :
      Reads fs (u :: us) p q

theorem Reads.append (h : Reads fs us p q) (h' : Reads fs vs q r) :
    Reads fs (us ++ vs) p r := by
  induction h with
  | nil => exact h'
  | cons legal _ ih => exact .cons legal (ih h')

/-- A fact about the parser that every unit keeps. -/
theorem Reads.invariant {P : Parser → Prop} (h : Reads fs us p q)
    (hp : P p) (hstep : ∀ p u, P p → Legal fs p u → P (effect fs u p)) :
    P q := by
  induction h with
  | nil => exact hp
  | cons legal _ ih => exact ih (hstep _ _ hp legal)

/-- Every unit of a run was accepted somewhere. -/
theorem Reads.legal (h : Reads fs us p q) (hu : u ∈ us) :
    ∃ p, Legal fs p u := by
  induction h with
  | nil => cases hu
  | cons legal _ ih =>
      rcases List.mem_cons.mp hu with rfl | hu
      · exact ⟨_, legal⟩
      · exact ih hu

-- ============================================================== expansion

/-- A unit with response files read in place. -/
def splice (read : Str → List (Piece Arg)) : Piece Arg → List (Piece Arg)
  | .single a => if a.head? = some '@' then read a.tail else [.single a]
  | u => [u]

/-- The units of a command line, response files included. -/
def expand (fs : FileSystem) : Nat → List Arg → List (Piece Arg)
  | 0, _ => []
  | depth + 1, args => (cut takesOperand args).flatMap (splice fun argsFile =>
      expand fs depth (fileArgs (fs.content (cstr argsFile))))

section

variable {o x : Arg}

/-- Options that take an operand pass the checks in front. -/
theorem takesOperand_facts (h : takesOperand o = true) :
    ' ' ∉ o ∧ noDistribute o = false ∧ o.head? ≠ some '@' := by
  have htab : ∀ o ∈ Opt.o :: Opt.x :: Opt.target :: multiArgsCPP,
      ' ' ∉ o ∧ noDistribute o = false ∧ o.head? ≠ some '@' := by
    decide +kernel
  apply htab
  simpa [takesOperand, or_assoc] using h

/-- The multi options are not among the ones named in the parser. -/
theorem multiArgsCPP_named (h : o ∈ multiArgsCPP) :
    Opt.o.isPrefixOf o = false ∧ o ≠ Opt.c ∧ o ≠ Opt.S ∧ o ≠ Opt.o ∧
      o ≠ Opt.x ∧ o ≠ Opt.target ∧ Opt.targetEq.isPrefixOf o = false := by
  have htab : ∀ o ∈ multiArgsCPP, Opt.o.isPrefixOf o = false ∧ o ≠ Opt.c ∧
      o ≠ Opt.S ∧ o ≠ Opt.o ∧ o ≠ Opt.x ∧ o ≠ Opt.target ∧
      Opt.targetEq.isPrefixOf o = false := by
    decide +kernel
  exact htab o h

/-- The four options by name. -/
theorem takesOperand_cases (h : takesOperand o = true) :
    o = Opt.o ∨ o = Opt.x ∨ o = Opt.target ∨ o ∈ multiArgsCPP := by
  simpa [takesOperand, or_assoc] using h

/-- The input file is never an operand. -/
theorem kind_pair : kind fs (.pair o x) ≠ .input := by
  simp only [kind]
  split_ifs <;> simp

end

end Distplusplus.Client
