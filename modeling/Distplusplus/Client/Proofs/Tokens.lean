/-
The client parser's accounting of tokens.

`Reads` says what each unit did; here the whole run is said in terms of the
tokens of the command line. Every token belongs to one unit, and a unit is
passed on whole or dropped whole, so `args()` is the command line with the
dropped units cut out:

- the outputs, `-o X` and `-oX`; the last one is `outfile()`;
- the modes, `-c` and `-S`; the last one is `modeArg()`;
- the input file, the only token that reaches the file check and passes it.

An operand never stands alone in this list, so it is neither read as a flag
nor taken for an input.
-/
import Distplusplus.Client.Proofs.Reads

namespace Distplusplus.Client

open Lib Common Piece

variable {fs : FileSystem} {u : Piece Arg} {us : List (Piece Arg)}
variable {p q : Parser}

-- ================================================================ outputs

/-- An output unit: `-o X` or `-oX`. -/
def isOutput : Piece Arg → Bool
  | .single a => Opt.o.isPrefixOf a
  | .pair o _ => decide (o = Opt.o)
  | .dangling _ => false

theorem isOutput_iff : isOutput u = true ↔ ∃ f, kind fs u = .output f := by
  cases u with
  | dangling o => simp [isOutput, kind]
  | single a =>
      simp only [isOutput, kind]
      constructor
      · intro ho
        exact ⟨_, if_pos ho⟩
      · intro h
        obtain ⟨f, hf⟩ := h
        split_ifs at hf with ho
        exact ho
  | pair o x =>
      simp only [isOutput, kind, decide_eq_true_eq]
      constructor
      · intro ho
        exact ⟨_, if_pos ho⟩
      · intro h
        obtain ⟨f, hf⟩ := h
        split_ifs at hf with ho
        exact ho

/-- The file an output unit names. -/
def outputOf : Piece Arg → Option Arg
  | .single a => if Opt.o.isPrefixOf a then some (a.drop 2) else none
  | .pair o x => if o = Opt.o then some x else none
  | .dangling _ => none

theorem kind_output {f : Arg} (h : kind fs u = .output f) :
    outputOf u = some f := by
  cases u with
  | dangling o => cases h
  | single a =>
      simp only [kind] at h
      split_ifs at h with ho
      cases h
      exact if_pos ho
  | pair o x =>
      simp only [kind] at h
      split_ifs at h with ho
      cases h
      exact if_pos ho

theorem outputOf_none (h : isOutput u = false) : outputOf u = none := by
  cases u with
  | dangling o => rfl
  | single a => exact if_neg (ne_true_of_eq_false h)
  | pair o x => exact if_neg (of_decide_eq_false h)

theorem effect_outfile :
    (effect fs u p).outfile = (outputOf u).getD p.outfile := by
  have hother : (∀ f, kind fs u ≠ .output f) → outputOf u = none := by
    intro hne
    apply outputOf_none
    rw [Bool.eq_false_iff]
    intro ho
    obtain ⟨f, hf⟩ := isOutput_iff.mp ho
    exact hne f hf
  unfold effect
  cases hk : kind fs u with
  | output f => rw [kind_output hk]; rfl
  | language lang =>
      rw [hother (by simp [hk])]
      simp only [languageOption, Parser.push]
      split_ifs <;> rfl
  | _ => rw [hother (by simp [hk])]; rfl

theorem Reads.outfile (h : Reads fs us p q) :
    q.outfile = (us.filterMap outputOf).getLastD p.outfile := by
  induction h with
  | nil p => rfl
  | @cons u us p q legal rest ih =>
      rw [ih, effect_outfile, List.filterMap_cons]
      cases outputOf u with
      | none => rfl
      | some f => rw [Option.getD_some, List.getLastD_cons]

-- ================================================================ targets

/-- The target a unit names. -/
def targetOf : Piece Arg → Option Arg
  | .single a => if Opt.targetEq.isPrefixOf a then some (a.drop 9) else none
  | .pair o x => if o = Opt.target then some x else none
  | .dangling _ => none

theorem kind_target {t : Arg} (h : kind fs u = .target t) :
    targetOf u = some t := by
  cases u with
  | dangling o => cases h
  | single a =>
      simp only [kind] at h
      split_ifs at h with _ _ ht
      cases h
      exact if_pos ht
  | pair o x =>
      simp only [kind] at h
      split_ifs at h with _ _ ht
      cases h
      exact if_pos ht

theorem targetOf_none (h : isTarget u = false) : targetOf u = none := by
  cases u with
  | dangling o => rfl
  | single a => exact if_neg (ne_true_of_eq_false h)
  | pair o x => exact if_neg (of_decide_eq_false h)

theorem effect_target_eq :
    (effect fs u p).target = (targetOf u).or p.target := by
  have hother : (∀ t, kind fs u ≠ .target t) → targetOf u = none :=
    fun hne => targetOf_none (isTarget_of_kind hne)
  unfold effect
  cases hk : kind fs u with
  | target t => rw [kind_target hk]; rfl
  | language lang =>
      rw [hother (by simp [hk])]
      simp only [languageOption, Parser.push]
      split_ifs <;> rfl
  | _ => rw [hother (by simp [hk])]; rfl

theorem Reads.target_eq (h : Reads fs us p q) :
    q.target = (us.filterMap targetOf).getLast?.or p.target := by
  induction h with
  | nil p => rfl
  | @cons u us p q legal rest ih =>
      rw [ih, effect_target_eq, List.filterMap_cons]
      cases targetOf u with
      | none => rfl
      | some t =>
          rw [List.getLast?_cons, Option.some_or, Option.some_or]
          cases (us.filterMap targetOf).getLast? <;> rfl

-- ============================================================== the input

/-- A regular file with an input extension that none of the branches
before the file check takes. -/
structure Candidate (fs : FileSystem) (a : Arg) : Prop where
  regular : fs.status (cstr a) = .regular
  extension : extension a ∈ inputFileExtension
  notOutput : Opt.o.isPrefixOf a = false
  notMode : a ≠ Opt.c ∧ a ≠ Opt.S
  notTarget : Opt.targetEq.isPrefixOf a = false

theorem kind_input_iff {a : Arg} :
    kind fs (.single a) = .input ↔ Candidate fs a := by
  constructor
  · intro h
    simp only [kind] at h
    split_ifs at h with ho hm ht hin
    simp only [isInputFile, Bool.and_eq_true, decide_eq_true_eq] at hin
    exact ⟨hin.1, hin.2, Bool.eq_false_iff.mpr ho, not_or.mp hm,
      Bool.eq_false_iff.mpr ht⟩
  · intro hex
    obtain ⟨hreg, hext, ho, hm, ht⟩ := hex
    have hin : isInputFile fs a = true := by simp [isInputFile, hreg, hext]
    simp only [kind]
    rw [if_neg (by simp [ho]), if_neg (not_or.mpr hm),
      if_neg (by simp [ht]), if_pos hin]

/-- The input unit of a run, by its text. -/
theorem Reads.isInput_eq (h : Reads fs us Parser.empty q) (hu : u ∈ us) :
    isInput fs u = decide (q.infile ≠ [] ∧ u = .single q.infile) := by
  rw [Bool.eq_iff_iff, decide_eq_true_iff]
  rcases h.infile with ⟨hnone, hq⟩ | ⟨-, hne, hone⟩
  · have hno := List.filter_eq_nil_iff.mp hnone u hu
    exact ⟨fun hi => absurd hi hno, fun he => absurd hq he.1⟩
  · rw [isInput_eq_of_only hone hu, decide_eq_true_iff]
    exact (and_iff_right hne).symm

-- ============================================================ what is kept

/-- The client drops outputs, modes and the input. -/
theorem forwarded_eq : forwarded fs u =
    !(isOutput u || isMode u || isInput fs u) := by
  have hno : ∀ k, kind fs u = k → (∀ f, k ≠ .output f) → k ≠ .mode →
      isOutput u = false ∧ isMode u = false := by
    intro k hk hout hmode
    rw [Bool.eq_false_iff, Bool.eq_false_iff]
    refine ⟨fun h => ?_, fun h => hmode (hk ▸ isMode_iff.mp h)⟩
    obtain ⟨f, hf⟩ := isOutput_iff.mp h
    exact hout f (hk ▸ hf)
  unfold forwarded isInput
  cases hk : kind fs u with
  | output f => simp [isOutput_iff.mpr ⟨f, hk⟩]
  | mode => simp [isMode_iff.mpr hk]
  | input => simp
  | _ =>
      obtain ⟨hout, hmode⟩ := hno _ hk (by simp) (by simp)
      simp [hout, hmode]


/-- The units that are passed on, given the input file. -/
def passedOn (infile : Arg) (u : Piece Arg) : Bool :=
  !(isOutput u || isMode u || decide (infile ≠ [] ∧ u = .single infile))

theorem Reads.forwarded_eq (h : Reads fs us Parser.empty q) :
    us.filter (forwarded fs) = us.filter (passedOn q.infile) :=
  List.filter_congr fun u hu => by
    rw [Client.forwarded_eq, h.isInput_eq hu, passedOn]

/-- Without response files a command line is its own expansion. -/
theorem expand_of_no_files {depth : Nat} {args : List Arg}
    (h : ∀ u ∈ cut takesOperand args, u.head.head? ≠ some '@') :
    expand fs (depth + 1) args = cut takesOperand args := by
  unfold expand
  generalize cut takesOperand args = us at h
  induction us with
  | nil => rfl
  | cons u us ih =>
      have hu := h u (List.mem_cons_self ..)
      rw [List.flatMap_cons, ih fun v hv => h v (List.mem_cons_of_mem _ hv)]
      cases u with
      | single a =>
          rw [splice, if_neg (show a.head? ≠ some '@' from hu)]
          rfl
      | pair o x => rfl
      | dangling o => rfl

/-- The units of a command line, and what the parser has done with each. -/
structure Accounted (fs : FileSystem) (us : List (Piece Arg))
    (p : Parser) : Prop where
  whole : ∀ u ∈ us, u.WellCut takesOperand
  args : p.args = (us.filter (passedOn p.infile)).flatMap tokens
  infile : ∀ a, (.single a ∈ us ∧ Candidate fs a) ↔
    p.infile ≠ [] ∧ a = p.infile
  once : p.infile ≠ [] → us.count (.single p.infile) = 1
  outfile : p.outfile = (us.filterMap outputOf).getLastD []
  target : p.target = (us.filterMap targetOf).getLast?
  modeArg : p.modeArg = ((us.filter isMode).map head).getLastD []

/-- A run from the empty parser accounts for its units. -/
theorem Reads.accounted (h : Reads fs us Parser.empty q) :
    Accounted fs us q := by
  refine ⟨?_, ?_, ?_, ?_, h.outfile, ?_, h.modeArg⟩
  · intro u hu
    obtain ⟨p, hlegal⟩ := h.legal hu
    exact hlegal.wellCut
  · rw [h.args, h.forwarded_eq]
    rfl
  · intro a
    constructor
    · intro hex
      obtain ⟨ha, hcand⟩ := hex
      have hin : isInput fs (.single a) = true :=
        decide_eq_true (kind_input_iff.mpr hcand)
      rw [h.isInput_eq ha, decide_eq_true_iff] at hin
      exact ⟨hin.1, Piece.single.inj hin.2⟩
    · intro hex
      obtain ⟨hne, rfl⟩ := hex
      rcases h.infile with ⟨-, hq⟩ | ⟨-, -, hone⟩
      · exact absurd hq hne
      · have hmem : Piece.single q.infile ∈ us.filter (isInput fs) := by
          rw [hone]
          exact List.mem_singleton_self _
        obtain ⟨hu, hin⟩ := List.mem_filter.mp hmem
        exact ⟨hu, kind_input_iff.mp (of_decide_eq_true hin)⟩
  · intro hne
    rcases h.infile with ⟨-, hq⟩ | ⟨-, -, hone⟩
    · exact absurd hq hne
    · have hcongr : us.filter (isInput fs) =
          us.filter fun u => decide (u = .single q.infile) :=
        List.filter_congr fun u hu => by
          rw [h.isInput_eq hu]
          simp [hne]
      have hlen := congrArg List.length hone
      rw [hcongr, ← List.countP_eq_length_filter] at hlen
      exact hlen
  · rw [h.target_eq]
    exact Option.or_none

-- ============================================================ the theorem

variable {depth : Nat} {args : List Arg}

/-- Every token is consumed once: the command line is cut into units, and
`Accounted` says what became of each. -/
theorem tokens_accounted
    (h : parseArgs fs depth args Parser.empty = .ok p)
    (hfiles : ∀ u ∈ cut takesOperand args, u.head.head? ≠ some '@') :
    (cut takesOperand args).flatMap tokens = args ∧
      Accounted fs (cut takesOperand args) p := by
  have hreads := parseArgs_reads h
  cases depth with
  | zero => cases h
  | succ depth =>
      rw [expand_of_no_files hfiles] at hreads
      exact ⟨cut_tokens args, hreads.accounted⟩

/-- A line in which every operand looks like something else. -/
theorem tokens_accounted_operands :
    ∃ p, parseArgs (oneFile "foo.c".toList) 1 (table ["-x", "-c", "-I",
        "foo.c", "-oa.o", "-S", "-target", "-o", "foo.c", "-c"])
        Parser.empty = .ok p ∧
      Accounted (oneFile "foo.c".toList) (cut takesOperand (table ["-x",
        "-c", "-I", "foo.c", "-oa.o", "-S", "-target", "-o", "foo.c",
        "-c"])) p := by
  have hp : parseArgs (oneFile "foo.c".toList) 1 (table ["-x", "-c", "-I",
      "foo.c", "-oa.o", "-S", "-target", "-o", "foo.c", "-c"])
      Parser.empty = .ok ⟨table ["-x", "-c", "-I", "foo.c", "-target",
        "-o"], Opt.c, "foo.c".toList, "a.o".toList, some "-o".toList,
        some false, .C⟩ := by decide +kernel
  have hno : ∀ u ∈ cut takesOperand (table ["-x", "-c", "-I", "foo.c",
      "-oa.o", "-S", "-target", "-o", "foo.c", "-c"]),
      u.head.head? ≠ some '@' := by
    decide +kernel
  exact ⟨_, hp, (tokens_accounted hp hno).2⟩

end Distplusplus.Client
