/-
The request as units.

`Sends` describes a parser; `commandUnits` adds what `func` adds, and is
the unit list of both generated commands (`Sends.commandArgs`). Each of its
units is `Sent`: cut under the client's rule, past the client's refusals,
and neither a mode nor an output.
-/
import Distplusplus.Client.Func
import Distplusplus.Client.Proofs.Reads

namespace Distplusplus.Client

open Lib Common Piece

variable {fs : FileSystem} {u : Piece Arg} {us : List (Piece Arg)}
variable {p : Parser}

/-- The target `func` adds for clang when no unit named one. -/
def addedUnit (compilerType : CompilerType) (buildTarget : Arg)
    (us : List (Piece Arg)) : List (Piece Arg) :=
  if compilerType = .clang ∧ us.any isTarget = false then
    [.pair Opt.target buildTarget] else []

/-- The units of both commands. -/
def commandUnits (fs : FileSystem) (compilerType : CompilerType)
    (buildTarget : Arg) (us : List (Piece Arg)) : List (Piece Arg) :=
  us.filter (forwarded fs) ++ addedUnit compilerType buildTarget us

/-- A unit of a generated command. -/
structure Sent (u : Piece Arg) : Prop where
  wellCut : u.WellCut takesOperand
  distributable : noDistribute u.head = false
  notMode : u ≠ .single Opt.c
  notOutput : u.head ≠ Opt.o
  languages : ∀ lang, u = .pair Opt.x lang →
    lang ∈ xArgsC ∨ lang ∈ xArgsCXX

theorem Sends.target_none (h : Sends fs us p) :
    p.target = none ↔ us.any isTarget = false := by
  rw [← h.target]
  cases p.target <;> simp

/-- What `func` adds is what `addedUnit` adds. -/
theorem Sends.addedTarget (h : Sends fs us p)
    (compilerType : CompilerType) (buildTarget : Arg) :
    (addedTarget compilerType buildTarget p).flatMap (fun t => [t.1, t.2]) =
      (addedUnit compilerType buildTarget us).flatMap tokens := by
  unfold Client.addedTarget addedUnit
  by_cases hadd : compilerType = .clang ∧ p.target = none
  · rw [if_pos hadd, if_pos ⟨hadd.1, h.target_none.mp hadd.2⟩]
    rfl
  · rw [if_neg hadd, if_neg fun hu =>
      hadd ⟨hu.1, h.target_none.mpr hu.2⟩]
    rfl

/-- The shared arguments are the tokens of the units. -/
theorem Sends.commandArgs (h : Sends fs us p)
    (compilerType : CompilerType) (buildTarget : Arg) :
    commandArgs compilerType buildTarget p =
      (commandUnits fs compilerType buildTarget us).flatMap tokens := by
  rw [Client.commandArgs, commandUnits, List.flatMap_append, h.args,
    h.addedTarget]

/-- A unit that is passed on. -/
theorem Sends.sent_of_forwarded (h : Sends fs us p) (hu : u ∈ us)
    (hf : forwarded fs u = true) : Sent u := by
  obtain ⟨p₀, hlegal⟩ := h.legal u hu
  refine ⟨hlegal.wellCut, hlegal.distributable, ?_, ?_, ?_⟩
  · intro heq
    subst heq
    cases hf
  · intro ho
    cases u with
    | dangling o => exact hlegal.wellCut.elim
    | pair o x =>
        rw [show o = Opt.o from ho] at hf
        cases hf
    | single a =>
        have hcut := hlegal.wellCut
        rw [show a = Opt.o from ho] at hcut
        cases hcut
  · intro lang heq
    subst heq
    exact h.languages lang hu

/-- Every unit of a command is such a unit. -/
theorem Sends.sent {compilerType : CompilerType} {buildTarget : Arg}
    (h : Sends fs us p)
    (hu : u ∈ commandUnits fs compilerType buildTarget us) : Sent u := by
  rcases List.mem_append.mp hu with hu | hu
  · obtain ⟨hu, hf⟩ := List.mem_filter.mp hu
    exact h.sent_of_forwarded hu hf
  · unfold addedUnit at hu
    split_ifs at hu
    · rw [List.mem_singleton] at hu
      subst hu
      have hnd := (named_options Opt.target (by simp)).1
      have ho : Opt.target ≠ Opt.o := by decide
      exact ⟨rfl, hnd, (by simp), ho, fun lang heq => by cases heq⟩
    · cases hu

end Distplusplus.Client
