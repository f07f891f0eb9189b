/-
What becomes of a compile flag.

A command line goes through two filters with a rewriting in between: the
client drops the outputs, the modes and the input file, adds a target and
puts the mode back at the end; the server drops what only the preprocessor
reads. `survives` is the composition, on the units of the original line.

The server stays aligned with the client's units as long as it never takes
an operand for an option, so the two assumptions of `flags_preserved` are
about targets that look like options. The operands of `-x` need none: the
client has checked them against its table.

- `parseLoop_unit`: the server on one unit.
- `parseLoop_units`: the server on the units of a command.
- `forwarded_iff`: the client on one unit.
- `flags_preserved`: end to end.
-/
import Distplusplus.Client.Proofs.Request
import Distplusplus.Client.Proofs.Tokens
import Distplusplus.Server.Parser

namespace Distplusplus

open Lib Common Piece Client

variable {fs : FileSystem} {u : Piece Arg} {us : List (Piece Arg)}

-- ============================================================== the filter

/-- A single token with the start of a preprocessor option. -/
def startsCPP : Piece Arg → Bool
  | .single a => startsWithAny singleArgsCPPStartsWith a
  | _ => false

/-- A unit only the preprocessor reads. -/
def isCPP (u : Piece Arg) : Bool :=
  decide (u.head ∈ multiArgsCPP) || decide (u.head ∈ singleArgsCPP) ||
    startsCPP u

/-- `-x` and `-target` are for the compiler. -/
theorem isCPP_operand {o x : Arg} (h : o = Opt.x ∨ o = Opt.target) :
    isCPP (.pair o x) = false := by
  obtain ⟨-, hm, hs, -⟩ := named_options o
    (by rcases h with rfl | rfl <;> simp)
  simp [isCPP, startsCPP, head, hm, hs]

/-- The units the remote compiler gets to see. -/
def survives (infile : Arg) (u : Piece Arg) : Bool :=
  !(isOutput u || isMode u || decide (u = .single infile) || isCPP u)

-- ============================================================== the server

namespace Server

variable {c : Bool} {out rest : List Arg}

/-- An operand without a dash passes through. -/
theorem parseLoop_operand {x : Arg} (hx : x.head? ≠ some '-') :
    parseLoop (x :: rest) c out = parseLoop rest c (out ++ [x]) := by
  have hkeep : keeps x = true := by
    simp [keeps, not_mem_singleArgsCPP_of_head hx,
      not_mem_multiArgsCPP_of_head hx, not_startsWithCPP_of_head hx]
  have hc : x ≠ Opt.c := by
    intro heq
    subst heq
    exact hx rfl
  rw [parseLoop_single (not_noDistribute_of_head hx)
    (not_mem_multiArgsCPP_of_head hx), hkeep, if_pos rfl,
    decide_eq_false hc, Bool.or_false]

/-- The server on one unit of a command. -/
theorem parseLoop_unit (hu : Sent u)
    (ht : ∀ t, u = .pair Opt.target t → t.head? ≠ some '-') :
    parseLoop (u.tokens ++ rest) c out =
      parseLoop rest c (out ++ if isCPP u then [] else u.tokens) := by
  have hlang : ∀ l, l ∈ xArgsC ∨ l ∈ xArgsCXX → l.head? ≠ some '-' := by
    have htab : ∀ l ∈ xArgsC ++ xArgsCXX, l.head? ≠ some '-' := by
      decide +kernel
    exact fun l hl => htab l (List.mem_append.mpr hl)
  cases u with
  | dangling o => exact hu.wellCut.elim
  | single a =>
      have hn : noDistribute a = false := hu.distributable
      have hc : a ≠ Opt.c := fun he => hu.notMode (he ▸ rfl)
      have hm : a ∉ multiArgsCPP := fun hm => by
        have hcut : takesOperand a = false := hu.wellCut
        simp [takesOperand, hm] at hcut
      have hkeep : keeps a = !isCPP (.single a) := by
        show keeps a = !(decide (a ∈ multiArgsCPP) ||
          decide (a ∈ singleArgsCPP) ||
            startsWithAny singleArgsCPPStartsWith a)
        simp [keeps, hm]
      show parseLoop (a :: rest) c out = _
      rw [parseLoop_single hn hm, decide_eq_false hc, Bool.or_false, hkeep]
      cases isCPP (.single a) <;> rfl
  | pair o x =>
      show parseLoop (o :: x :: rest) c out = _
      by_cases hm : o ∈ multiArgsCPP
      · have hcpp : isCPP (.pair o x) = true := by simp [isCPP, head, hm]
        rw [parseLoop_multi hm, hcpp, if_pos rfl, List.append_nil]
      · -- what is left are `-x` and `-target`
        have hox : (o = Opt.x ∨ o = Opt.target) ∧ x.head? ≠ some '-' := by
          rcases takesOperand_cases hu.wellCut with rfl | rfl | rfl | hm'
          · exact absurd rfl hu.notOutput
          · exact ⟨.inl rfl, hlang x (hu.languages x rfl)⟩
          · exact ⟨.inr rfl, ht x rfl⟩
          · exact absurd hm' hm
        have hkeep : keeps o = true :=
          keeps_named (by rcases hox.1 with rfl | rfl <;> simp)
        have hc : o ≠ Opt.c := by
          rcases hox.1 with rfl | rfl
          · decide
          · decide
        have hcpp := isCPP_operand (x := x) hox.1
        have hn : noDistribute o = false := hu.distributable
        rw [parseLoop_single hn hm, hkeep, if_pos rfl, decide_eq_false hc,
          Bool.or_false, parseLoop_operand hox.2, hcpp,
          if_neg Bool.false_ne_true, List.append_assoc]
        rfl

/-- The server on the units of a command. -/
theorem parseLoop_units (hs : ∀ u ∈ us, Sent u)
    (ht : ∀ t, .pair Opt.target t ∈ us → t.head? ≠ some '-')
    (rest : List Arg) (c : Bool) (out : List Arg) :
    parseLoop (us.flatMap tokens ++ rest) c out =
      parseLoop rest c
        (out ++ (us.filter fun u => !isCPP u).flatMap tokens) := by
  induction us generalizing out with
  | nil => simp
  | cons u us ih =>
      rw [List.flatMap_cons, List.append_assoc,
        parseLoop_unit (hs u (List.mem_cons_self ..)) fun t he =>
          ht t (he ▸ List.mem_cons_self ..),
        ih (fun v hv => hs v (List.mem_cons_of_mem _ hv)) fun t hm =>
          ht t (List.mem_cons_of_mem _ hm)]
      cases hcpp : isCPP u <;> simp [hcpp]

/-- The mode at the end of a command is what the server looks for. -/
theorem parseLoop_mode (c : Bool) (out : List Arg) :
    parseLoop [Opt.c] c out = .ok (true, out ++ [Opt.c]) := by
  obtain ⟨hn, hm, -, -⟩ := named_options Opt.c (by simp)
  rw [parseLoop_single hn hm, keeps_named (by simp), if_pos rfl,
    decide_eq_true rfl, Bool.or_true, parseLoop]

end Server

-- ============================================================== the client

variable {p : Parser}

/-- The input unit of a parsed command line, by its text. -/
theorem Client.Sends.isInput_eq (h : Sends fs us p) (hu : u ∈ us) :
    isInput fs u = decide (u = .single p.infile) :=
  isInput_eq_of_only h.infile hu

/-- The two filters, composed. -/
theorem Client.Sends.survivors (h : Sends fs us p) :
    (us.filter (forwarded fs)).filter (fun u => !isCPP u) =
      us.filter (survives p.infile) := by
  rw [List.filter_filter]
  refine List.filter_congr fun u hu => ?_
  rw [forwarded_eq, h.isInput_eq hu, survives, ← Bool.not_or, Bool.or_comm]

/-- The input file is given once. -/
theorem Client.Sends.count_infile (h : Sends fs us p) :
    us.count (.single p.infile) = 1 := by
  have hcongr : us.filter (isInput fs) =
      us.filter fun u => decide (u = .single p.infile) :=
    List.filter_congr fun u hu => h.isInput_eq hu
  have hlen := congrArg List.length h.infile
  rw [hcongr, ← List.countP_eq_length_filter] at hlen
  show us.countP (fun u => decide (u = .single p.infile)) = 1
  exact hlen

-- =========================================================== end to end

variable {depth : Nat} {args : List Arg}

/-- The server's output for a command line the client distributes: the
surviving units in order, the added target, and one `-c`. -/
theorem flags_preserved (compilerType : CompilerType) (buildTarget : Arg)
    (h : parse fs depth args = .ok p) (hd : p.canDistribute = some true)
    (hfiles : ∀ u ∈ cut takesOperand args, u.head.head? ≠ some '@')
    (hmode : p.modeArg = Opt.c)
    (htarget : ∀ t, .pair Opt.target t ∈ cut takesOperand args →
      t.head? ≠ some '-')
    (hbuild : compilerType = .clang → p.target = none →
      buildTarget.head? ≠ some '-') :
    Server.parse (requestArgs compilerType buildTarget p) = .ok
        (((cut takesOperand args).filter (survives p.infile)).flatMap tokens
          ++ (addedTarget compilerType buildTarget p).flatMap
            (fun t => [t.1, t.2])
          ++ [Opt.c]) ∧
      (cut takesOperand args).count (.single p.infile) = 1 := by
  have hsends := parse_sends h hd
  have hexp : expand fs depth args = cut takesOperand args := by
    cases depth with
    | zero => cases h
    | succ depth => exact expand_of_no_files hfiles
  rw [hexp] at hsends
  refine ⟨?_, hsends.count_infile⟩
  have htargets : ∀ t, .pair Opt.target t ∈
      commandUnits fs compilerType buildTarget (cut takesOperand args) →
      t.head? ≠ some '-' := by
    intro t ht
    rcases List.mem_append.mp ht with ht | ht
    · exact htarget t (List.mem_filter.mp ht).1
    · unfold addedUnit at ht
      split_ifs at ht with hadd
      · rw [List.mem_singleton] at ht
        cases ht
        exact hbuild hadd.1 (hsends.target_none.mpr hadd.2)
      · cases ht
  have hadded : (addedUnit compilerType buildTarget
      (cut takesOperand args)).filter (fun u => !isCPP u) =
      addedUnit compilerType buildTarget (cut takesOperand args) := by
    unfold addedUnit
    split_ifs
    · simp [isCPP_operand]
    · rfl
  have hloop := Server.parseLoop_units (fun u hu => hsends.sent hu) htargets
    [Opt.c] false []
  rw [← hsends.commandArgs, List.nil_append, commandUnits,
    List.filter_append, hsends.survivors, hadded, List.flatMap_append,
    ← hsends.addedTarget] at hloop
  unfold Server.parse requestArgs
  rw [hmode, hloop, Server.parseLoop_mode]
  rfl

/-- A line with a unit of every kind. -/
theorem flags_preserved_mixed :
    ∃ p, parse (oneFile "foo.c".toList) 1 (table ["-O2", "-I", "-c", "-x",
        "c", "-DX=1", "-c", "foo.c", "-MD", "-o", "foo.o", "-Wall"]) =
          .ok p ∧
      Server.parse (requestArgs .clang "x86_64-linux-gnu".toList p) =
        .ok (table ["-O2", "-x", "c", "-Wall", "-target",
          "x86_64-linux-gnu", "-c"]) := by
  have hp : parse (oneFile "foo.c".toList) 1 (table ["-O2", "-I", "-c",
      "-x", "c", "-DX=1", "-c", "foo.c", "-MD", "-o", "foo.o", "-Wall"]) =
      .ok ⟨table ["-O2", "-I", "-c", "-x", "c", "-DX=1", "-MD", "-Wall"],
        Opt.c, "foo.c".toList, "foo.o".toList, none, some true, .C⟩ := by
    decide +kernel
  have hno : ∀ u ∈ cut takesOperand (table ["-O2", "-I", "-c", "-x", "c",
      "-DX=1", "-c", "foo.c", "-MD", "-o", "foo.o", "-Wall"]),
      u.head.head? ≠ some '@' ∧ u.head ≠ Opt.target := by decide +kernel
  have h := flags_preserved .clang "x86_64-linux-gnu".toList hp rfl
    (fun u hu => (hno u hu).1) rfl
    (fun t ht => absurd rfl (hno _ ht).2) (fun _ _ => by decide)
  exact ⟨_, hp, h.1⟩

end Distplusplus
