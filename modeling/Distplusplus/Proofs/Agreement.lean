/-
When the server takes what the client sends.

The two parsers share their tables but not their reading. The client takes
an option and its operand together; the server knows operands only for the
options in `multiArgsCPP`, and reads the operand of `-x` and of `-target`
as an option of its own. Such an operand is `exposed`. It can be refused,
it can be the `-c` the server asks for, and it can itself be an option of
`multiArgsCPP`, in which case the server takes the next token for its
operand (`skip`), and is one token behind from there on.

The client counts `-S` as a mode, the server does not.

# Results

- `parse_ok_iff`: the server's verdict is `passes`, a scan that keeps no
  output.
- `passes_units`: the scan over units of a command, aligned or one token
  behind, says what the exposed operands say.
- `accepted_iff`: a request is accepted exactly when its command line is
  `Agreed`.
-/
import Distplusplus.Client.Proofs.Request
import Distplusplus.Server.Distribute

namespace Distplusplus

open Lib Common Piece Client

variable {c : Bool} {mode : Arg} {us : List (Piece Arg)}

-- ================================================================= verdict

namespace Server

/-- The server's loop, with its verdict only. -/
def passes : Bool → List Arg → Bool
  | c, [] => c
  | c, arg :: rest =>
      if noDistribute arg then false
      else if arg ∈ multiArgsCPP then
        match rest with
        | [] => false
        | _ :: rest => passes c rest
      else passes (c || decide (arg = Opt.c)) rest

variable {arg : Arg} {rest : List Arg}

theorem passes_refuse (h : noDistribute arg = true) :
    passes c (arg :: rest) = false := by
  rw [passes.eq_def]
  exact if_pos h

theorem passes_multi (h : arg ∈ multiArgsCPP) :
    passes c (arg :: rest) = (!rest.isEmpty && passes c rest.tail) := by
  have hn := (multiArgsCPP_facts arg h).1
  rw [passes.eq_def]
  dsimp only
  rw [if_neg (by simp [hn]), if_pos h]
  cases rest with
  | nil => rfl
  | cons x rest => rfl

theorem passes_single (hn : noDistribute arg = false)
    (hm : arg ∉ multiArgsCPP) :
    passes c (arg :: rest) = passes (c || decide (arg = Opt.c)) rest := by
  rw [passes.eq_def]
  dsimp only
  rw [if_neg (by simp [hn]), if_neg hm]

/-- The loop gets through exactly when the scan does. -/
theorem parseLoop_ok_iff (l : List Arg) (out : List Arg) :
    (∃ out', parseLoop l c out = .ok (true, out')) ↔ passes c l = true := by
  induction c, l using passes.induct generalizing out with
  | case1 c => simp [parseLoop, passes]
  | case2 c arg rest hn =>
      obtain ⟨e, he⟩ := parseLoop_refuse hn rest c out
      rw [passes_refuse hn, he]
      simp
  | case3 c arg hn hm =>
      obtain ⟨e, he⟩ := parseLoop_multi_last hm c out
      rw [passes_multi hm, he]
      simp
  | case4 c arg hn hm x rest ih =>
      rw [parseLoop_multi hm, passes_multi hm, ih]
      simp
  | case5 c arg rest hn hm ih =>
      have hn := Bool.not_eq_true _ ▸ hn
      rw [parseLoop_single hn hm, passes_single hn hm, ih]

/-- The server accepts exactly when the scan passes. -/
theorem parse_ok_iff (l : List Arg) :
    (∃ out, Server.parse l = .ok out) ↔ passes false l = true := by
  rw [← parseLoop_ok_iff l []]
  unfold Server.parse
  cases hl : parseLoop l false [] with
  | error signal => simp
  | ok result =>
      obtain ⟨canDistribute, args⟩ := result
      cases canDistribute with
      | true => simp
      | false => simp

end Server

-- ======================================================= exposed operands

/-- The operands the server reads as options. `skip` says that the server
takes the first token for an operand. -/
def exposed : Bool → List (Piece Arg) → List Arg
  | _, [] => []
  | skip, .pair o x :: us =>
      if skip = false ∧ o ∈ multiArgsCPP then exposed false us
      else x :: exposed (decide (x ∈ multiArgsCPP)) us
  | _, _ :: us => exposed false us

/-- Does the server take the token after these units for an operand? -/
def behind : Bool → List (Piece Arg) → Bool
  | skip, [] => skip
  | skip, .pair o x :: us =>
      if skip = false ∧ o ∈ multiArgsCPP then behind false us
      else behind (decide (x ∈ multiArgsCPP)) us
  | _, _ :: us => behind false us

/-- A command line the server agrees to compile: no exposed operand is
refused, and the server comes across a `-c`. -/
structure Agreed (skip c : Bool) (us : List (Piece Arg)) (mode : Arg) :
    Prop where
  accepted : ∀ x ∈ exposed skip us, noDistribute x = false
  compiles : c = true ∨ Opt.c ∈ exposed skip us ∨
    mode = Opt.c ∧ behind skip us = false

/-- The last token, when the server is aligned and when it is not. -/
theorem passes_mode (hmode : mode = Opt.c ∨ mode = Opt.S) (skip : Bool) :
    Server.passes c ([mode].drop skip.toNat) = true ↔
      Agreed skip c [] mode := by
  obtain ⟨hn, hm, -, -⟩ := named_options mode
    (by rcases hmode with rfl | rfl <;> simp)
  have hnone : ∀ x ∈ exposed skip [], noDistribute x = false :=
    fun x hx => by cases hx
  cases skip with
  | true =>
      show c = true ↔ _
      exact ⟨fun hc => ⟨hnone, .inl hc⟩, fun h => by simpa [exposed, behind]
        using h.compiles⟩
  | false =>
      rw [Bool.toNat_false, List.drop_zero,
        Server.passes_single hn hm, Server.passes,
        Bool.or_eq_true, decide_eq_true_iff]
      exact ⟨fun h => ⟨hnone, h.imp_right fun hm => .inr ⟨hm, rfl⟩⟩,
        fun h => by simpa [exposed, behind] using h.compiles⟩

/-- An operand read as an option, given the verdict on what follows. -/
theorem passes_exposed {x : Arg} {rest : List Arg} (hne : rest ≠ [])
    (ih : ∀ c skip, Server.passes c (rest.drop skip.toNat) = true ↔
      Agreed skip c us mode) :
    Server.passes c (x :: rest) = true ↔
      (noDistribute x = false ∧
        Agreed (decide (x ∈ multiArgsCPP)) (c || decide (x = Opt.c))
          us mode) := by
  obtain ⟨-, hc, -, -⟩ := named_options Opt.c (by simp)
  cases hn : noDistribute x with
  | true => simp [Server.passes_refuse hn]
  | false =>
      by_cases hm : x ∈ multiArgsCPP
      · have hx : x ≠ Opt.c := fun he => hc (he ▸ hm)
        rw [Server.passes_multi hm, decide_eq_true hm,
          decide_eq_false hx, Bool.or_false, ← ih]
        simp [hne]
      · rw [Server.passes_single hn hm, decide_eq_false hm, ← ih]
        simp

/-- A unit with an exposed operand adds that operand. -/
theorem agreed_exposed {o x : Arg} {skip : Bool}
    (h : ¬(skip = false ∧ o ∈ multiArgsCPP)) :
    Agreed skip c (.pair o x :: us) mode ↔ noDistribute x = false ∧
      Agreed (decide (x ∈ multiArgsCPP)) (c || decide (x = Opt.c))
        us mode := by
  have hexp : exposed skip (.pair o x :: us) =
      x :: exposed (decide (x ∈ multiArgsCPP)) us := if_neg h
  have hbeh : behind skip (.pair o x :: us) =
      behind (decide (x ∈ multiArgsCPP)) us := if_neg h
  constructor
  · intro ⟨hacc, hcomp⟩
    rw [hexp] at hacc hcomp
    rw [hbeh] at hcomp
    refine ⟨hacc x (List.mem_cons_self ..),
      fun y hy => hacc y (List.mem_cons_of_mem _ hy), ?_⟩
    rcases hcomp with hc | hmem | hmode
    · exact .inl (by simp [hc])
    · rcases List.mem_cons.mp hmem with hx | hmem
      · exact .inl (by simp [hx])
      · exact .inr (.inl hmem)
    · exact .inr (.inr hmode)
  · intro ⟨hx, hacc, hcomp⟩
    refine ⟨?_, ?_⟩
    · rw [hexp]
      intro y hy
      rcases List.mem_cons.mp hy with rfl | hy
      · exact hx
      · exact hacc y hy
    · rw [hexp, hbeh]
      rcases hcomp with hc | hmem | hmode
      · rcases (Bool.or_eq_true _ _).mp hc with hc | hx
        · exact .inl hc
        · exact .inr (.inl (List.mem_cons.mpr
            (.inl (of_decide_eq_true hx).symm)))
      · exact .inr (.inl (List.mem_cons_of_mem _ hmem))
      · exact .inr (.inr hmode)

/-- A unit without one adds nothing. -/
theorem agreed_frame {u : Piece Arg} {skip : Bool}
    (hexp : exposed skip (u :: us) = exposed false us)
    (hbeh : behind skip (u :: us) = behind false us) :
    Agreed skip c (u :: us) mode ↔ Agreed false c us mode := by
  constructor
  · intro ⟨hacc, hcomp⟩
    rw [hexp] at hacc hcomp
    rw [hbeh] at hcomp
    exact ⟨hacc, hcomp⟩
  · intro ⟨hacc, hcomp⟩
    rw [← hexp] at hacc hcomp
    rw [← hbeh] at hcomp
    exact ⟨hacc, hcomp⟩

/-- The server's scan over the units of a command and the mode at its end.
The induction is on the units; `skip` is the alignment it carries. -/
theorem passes_units (hs : ∀ u ∈ us, Sent u)
    (hmode : mode = Opt.c ∨ mode = Opt.S) (c skip : Bool) :
    Server.passes c ((us.flatMap tokens ++ [mode]).drop skip.toNat) = true ↔
      Agreed skip c us mode := by
  induction us generalizing c skip with
  | nil => exact passes_mode hmode skip
  | cons u us ih =>
      have hu := hs u (List.mem_cons_self ..)
      have ih := fun c skip =>
        ih (fun v hv => hs v (List.mem_cons_of_mem _ hv)) c skip
      have haligned := fun c => ih c false
      simp only [Bool.toNat_false, List.drop_zero] at haligned
      have hne : us.flatMap tokens ++ [mode] ≠ [] := by simp
      rw [List.flatMap_cons, List.append_assoc]
      cases u with
      | dangling o => exact hu.wellCut.elim
      | single a =>
          rw [agreed_frame rfl rfl, ← haligned]
          cases skip with
          | true => rfl
          | false =>
              have ha : a ≠ Opt.c := fun he => hu.notMode (he ▸ rfl)
              have hm : a ∉ multiArgsCPP := fun hm => by
                have hcut : takesOperand a = false := hu.wellCut
                simp [takesOperand, hm] at hcut
              show Server.passes c (a :: (us.flatMap tokens ++ [mode])) =
                true ↔ _
              have hn : noDistribute a = false := hu.distributable
              rw [Server.passes_single hn hm, decide_eq_false ha,
                Bool.or_false]
      | pair o x =>
          by_cases hm : skip = false ∧ o ∈ multiArgsCPP
          · have hexp : exposed skip (.pair o x :: us) = exposed false us :=
              if_pos hm
            have hbeh : behind skip (.pair o x :: us) = behind false us :=
              if_pos hm
            rw [agreed_frame hexp hbeh, ← haligned]
            obtain ⟨rfl, hm⟩ := hm
            show Server.passes c (o :: x :: (us.flatMap tokens ++ [mode])) =
              true ↔ _
            rw [Server.passes_multi hm]
            rfl
          · rw [agreed_exposed hm, ← passes_exposed hne ih]
            cases skip with
            | true => rfl
            | false =>
                have hm : o ∉ multiArgsCPP := fun h => hm ⟨rfl, h⟩
                have ho : o ≠ Opt.c := by
                  intro heq
                  subst heq
                  cases hu.wellCut
                show Server.passes c
                  (o :: x :: (us.flatMap tokens ++ [mode])) = true ↔ _
                have hn : noDistribute o = false := hu.distributable
                rw [Server.passes_single hn hm, decide_eq_false ho,
                  Bool.or_false]

-- ================================================================ requests

variable {fs : FileSystem} {depth : Nat} {args : List Arg} {p : Parser}

/-- The server takes a request past its checks on names and arguments. -/
def Accepts (request : CompileRequest) : Prop :=
  Server.sanitizeFile request.inputFile = true ∧
    ∃ out, Server.parse request.argument = .ok out

/-- A request for a parsed command line is accepted exactly when the units
of the command and its last mode are agreed on. -/
theorem accepted_iff (h : parse fs depth args = .ok p)
    (hd : p.canDistribute = some true) (compilerName : Str)
    (buildTarget : Arg) (uuid : Str) (compressionType : CompressionType)
    (content cwd : Str) :
    Accepts (compileRequest compilerName buildTarget p uuid compressionType
        content cwd) ↔
      Agreed false false
        (commandUnits fs (mapCompiler compilerName) buildTarget
          (expand fs depth args))
        (lastMode (expand fs depth args) []) := by
  have hsends := parse_sends h hd
  have hname : Server.sanitizeFile (compileRequest compilerName buildTarget
      p uuid compressionType content cwd).inputFile = true :=
    Server.sanitizeFile_iff.mpr (slash_not_mem_filename p.infile)
  have hmode := hsends.modeArg ▸ hsends.mode
  unfold Accepts
  rw [and_iff_right hname, Server.parse_ok_iff]
  show Server.passes false (commandArgs (mapCompiler compilerName)
    buildTarget p ++ [p.modeArg]) = true ↔ _
  rw [hsends.commandArgs, hsends.modeArg]
  exact passes_units (fun u hu => hsends.sent hu) hmode false false

/-- A command line for `foo.c` that the client distributes and the server
refuses. -/
def Refused (args : List Arg) : Prop :=
  ∃ p, parse (oneFile "foo.c".toList) 1 args = .ok p ∧
    p.canDistribute = some true ∧
    ¬Accepts (compileRequest "gcc".toList "x86_64-linux-gnu".toList p
      "a".toList .NONE [] "/".toList)

/-- The mode `-S`; a target operand the server refuses; one that takes the
mode for its operand. -/
theorem disagreed :
    Refused ["foo.c".toList, Opt.S] ∧
    Refused ["foo.c".toList, Opt.target, "-E".toList, Opt.c] ∧
    Refused ["foo.c".toList, Opt.c, Opt.target, "-I".toList] := by
  have hno : ∀ request, Server.passes false request.argument = false →
      ¬Accepts request := by
    intro request h ⟨_, hout⟩
    rw [Server.parse_ok_iff, h] at hout
    cases hout
  refine ⟨⟨_, rfl, rfl, hno _ ?_⟩, ⟨_, rfl, rfl, hno _ ?_⟩,
    ⟨_, rfl, rfl, hno _ ?_⟩⟩
  · rfl
  · rfl
  · rfl

/-- With `-c` both agree. -/
theorem accepted_iff_plain :
    ∃ p, parse (oneFile "foo.c".toList) 1 ["foo.c".toList, Opt.c] = .ok p ∧
      Accepts (compileRequest "gcc".toList "x86_64-linux-gnu".toList p
        "a".toList .NONE [] "/".toList) := by
  have hp : parse (oneFile "foo.c".toList) 1 ["foo.c".toList, Opt.c] =
      .ok ⟨[], Opt.c, "foo.c".toList, "foo.o".toList, none, some true,
        .C⟩ := by decide +kernel
  refine ⟨_, hp, ?_⟩
  refine (accepted_iff hp rfl _ _ _ _ _ _).mpr ⟨?_, .inr (.inr ⟨rfl, rfl⟩)⟩
  exact fun x hx => by cases hx

end Distplusplus
