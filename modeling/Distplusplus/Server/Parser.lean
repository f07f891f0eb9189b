/-
The server's argument filter (`server/parser.cpp`).

One loop over the argument list: refuse what cannot be compiled remotely,
drop what only the preprocessor reads, keep the rest in order. `parseLoop`
is that loop, with the index replaced by the rest of the list, so that
`i++` on a filtered option is the second `::` of its pattern.

The lemmas below it are one per kind of argument: callers cite them and
never unfold the loop.
-/
import Distplusplus.Common.Constants

namespace Distplusplus.Server

open Lib Common

/-- `CannotProcessSignal`, with its text. -/
structure CannotProcessSignal where
  error : Str
  deriving DecidableEq, Repr

/-- The loop of `Parser::parse`. -/
def parseLoop : List Arg → Bool → List Arg →
    Except CannotProcessSignal (Bool × List Arg)
  | [], canDistribute, args => .ok (canDistribute, args)
  | arg :: rest, canDistribute, args =>
      if noDistribute arg then
        .error ⟨"encountered non-distributable argument ".toList ++ arg⟩
      -- filter out cpp flags
      else if arg ∈ singleArgsCPP then parseLoop rest canDistribute args
      else if arg ∈ multiArgsCPP then
        match rest with
        | [] => .error ⟨"tried to filter multi arg ".toList ++ arg ++
            " but it is the last argument".toList⟩
        | _ :: rest' => parseLoop rest' canDistribute args
      else if startsWithAny singleArgsCPPStartsWith arg then
        parseLoop rest canDistribute args
      else
        parseLoop rest (canDistribute || decide (arg = Opt.c))
          (args ++ [arg])

/-- `Parser::Parser`; the result is `args()`. -/
def parse (args : List Arg) : Except CannotProcessSignal (List Arg) :=
  match parseLoop args false [] with
  | .error signal => .error signal
  | .ok (canDistribute, args) =>
      if canDistribute then .ok args
      else .error
        ⟨"invocation seems non-distributable - called for link?".toList⟩

/-- The arguments kept when read at option position. -/
def keeps (arg : Arg) : Bool :=
  !(decide (arg ∈ singleArgsCPP) || decide (arg ∈ multiArgsCPP) ||
    startsWithAny singleArgsCPPStartsWith arg)

-- ==================================================== one lemma per kind

/-- No option that takes an operand is refused or dropped alone. -/
theorem multiArgsCPP_facts : ∀ o ∈ multiArgsCPP,
    noDistribute o = false ∧ o ∉ singleArgsCPP := by decide +kernel

/-- The options the parsers name are kept. -/
theorem keeps_named {o : Arg} (h : o ∈ [Opt.c, Opt.S, Opt.x, Opt.target]) :
    keeps o = true := by
  obtain ⟨-, hm, hs, hp⟩ := named_options o h
  simp [keeps, hm, hs, hp]

/-- A refused argument ends the loop. -/
theorem parseLoop_refuse {arg : Arg} (h : noDistribute arg = true)
    (rest : List Arg) (c : Bool) (out : List Arg) :
    ∃ e, parseLoop (arg :: rest) c out = .error e := by
  rw [parseLoop.eq_def]
  exact ⟨_, if_pos h⟩

/-- A preprocessor option and its operand are skipped together. -/
theorem parseLoop_multi {o : Arg} (h : o ∈ multiArgsCPP) (x : Arg)
    (rest : List Arg) (c : Bool) (out : List Arg) :
    parseLoop (o :: x :: rest) c out = parseLoop rest c out := by
  obtain ⟨hn, hs⟩ := multiArgsCPP_facts o h
  rw [parseLoop, if_neg (by simp [hn]), if_neg hs, if_pos h]

/-- A preprocessor option without its operand ends the loop. -/
theorem parseLoop_multi_last {o : Arg} (h : o ∈ multiArgsCPP) (c : Bool)
    (out : List Arg) : ∃ e, parseLoop [o] c out = .error e := by
  obtain ⟨hn, hs⟩ := multiArgsCPP_facts o h
  rw [parseLoop, if_neg (by simp [hn]), if_neg hs, if_pos h]
  exact ⟨_, rfl⟩

/-- Any other argument stands alone: it is kept or dropped by `keeps`. -/
theorem parseLoop_single {arg : Arg} (hn : noDistribute arg = false)
    (hm : arg ∉ multiArgsCPP) (rest : List Arg) (c : Bool)
    (out : List Arg) :
    parseLoop (arg :: rest) c out
      = parseLoop rest (c || decide (arg = Opt.c))
          (out ++ if keeps arg then [arg] else []) := by
  obtain ⟨-, -, hc, hp⟩ := named_options Opt.c (by simp)
  rw [parseLoop.eq_def]
  dsimp only
  rw [if_neg (by simp [hn])]
  by_cases hs : arg ∈ singleArgsCPP
  · rw [if_pos hs]
    have hne : arg ≠ Opt.c := fun he => hc (he ▸ hs)
    simp [keeps, hs, hne]
  · rw [if_neg hs, if_neg hm]
    by_cases hw : startsWithAny singleArgsCPPStartsWith arg = true
    · rw [if_pos hw]
      have hne : arg ≠ Opt.c := by
        intro heq
        subst heq
        rw [hp] at hw
        cases hw
      simp [keeps, hw, hne]
    · rw [if_neg hw]
      simp [keeps, hs, hm, hw]

end Distplusplus.Server
