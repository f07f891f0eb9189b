/-
When the client distributes, and what it may then rely on.

`canDistribute` is a latch: a mode raises it from undecided, an unknown
`-x` operand lowers it for good (`Reads.latch`). The constructor lowers it
once more for `conftest.c`. So the answer depends on what the command line
contains, not on its order (`distributes_iff`).

The checks in front of the loop see every token at option position, the
`@file` tokens included, so they are stated over `positions`: the command
line with its response files listed after the tokens that name them.
`expand` is `positions` without those tokens (`expand_eq`).
-/
import Distplusplus.Client.Proofs.Reads

namespace Distplusplus.Client

open Lib Common Piece

variable {fs : FileSystem} {u : Piece Arg} {us : List (Piece Arg)}
variable {p q : Parser} {depth : Nat} {args rest : List Arg}

-- =============================================================== positions

/-- A token that names a response file. -/
def namesFile : Piece Arg → Bool
  | .single a => decide (a.head? = some '@')
  | _ => false

/-- A unit, followed by the units of the response file it names. -/
def follow (read : Str → List (Piece Arg)) (u : Piece Arg) :
    List (Piece Arg) :=
  u :: if namesFile u then read u.head.tail else []

/-- The units of a command line and of its response files, the tokens that
name the files included. -/
def positions (fs : FileSystem) : Nat → List Arg → List (Piece Arg)
  | 0, _ => []
  | depth + 1, args => (cut takesOperand args).flatMap (follow fun argsFile =>
      positions fs depth (fileArgs (fs.content (cstr argsFile))))

theorem splice_eq (read : Str → List (Piece Arg)) (u : Piece Arg) :
    splice (fun file => (read file).filter fun u => !namesFile u) u =
      (follow read u).filter fun u => !namesFile u := by
  cases u with
  | single a =>
      by_cases ha : a.head? = some '@'
      · simp [splice, follow, namesFile, ha]
      · simp [splice, follow, namesFile, ha]
  | pair o x => rfl
  | dangling o => rfl

/-- What the parser acts on are the positions that name no file. -/
theorem expand_eq : expand fs depth args =
    (positions fs depth args).filter fun u => !namesFile u := by
  induction depth generalizing args with
  | zero => rfl
  | succ depth ih =>
      rw [expand, positions, List.filter_flatMap]
      refine List.flatMap_congr fun u _ => ?_
      rw [← splice_eq]
      simp only [ih]

/-- The checks in front of the loop let the unit through. -/
def Clear (u : Piece Arg) : Prop :=
  noDistribute u.head = false ∧ ' ' ∉ u.head

/-- A parse that returns has checked every position. -/
theorem parseArgs_clear (h : parseArgs fs depth args p = .ok q) :
    ∀ u ∈ positions fs depth args, Clear u := by
  induction depth generalizing args p q with
  | zero => cases h
  | succ depth ih =>
      rw [parseArgs_eq] at h
      refine Reader.loop_returns (P := fun us _ => ∀ u ∈ us.flatMap
        (follow fun argsFile =>
          positions fs depth (fileArgs (fs.content (cstr argsFile)))),
        Clear u) ?_ ?_ ?_ h
      · intro u hu
        cases hu
      · intro u us p p' hv ho hrest v hv'
        rw [List.flatMap_cons, List.mem_append] at hv'
        rcases hv' with hv' | hv'
        · have hnames : namesFile u = false := by
            cases u with
            | single a =>
                refine decide_eq_false fun hat => ?_
                have ho : opens fs (.single a) = none := ho
                rw [opens, if_pos hat] at ho
                cases ho
            | pair o x => rfl
            | dangling o => rfl
          rw [follow, hnames, if_neg Bool.false_ne_true,
            List.mem_singleton] at hv'
          rw [hv']
          exact clear_of_visit hv
        · exact hrest v hv'
      · intro u us vs p p' p'' hv ho hread hrest v hv'
        obtain ⟨a, rfl, hat, rfl, rfl⟩ := single_of_visit ho hv
        rw [List.flatMap_cons, List.mem_append] at hv'
        rcases hv' with hv' | hv'
        · rcases List.mem_cons.mp hv' with rfl | hv'
          · exact clear_of_visit hv
          · have hnames : namesFile (.single a) = true := decide_eq_true hat
            rw [hnames, if_pos rfl] at hv'
            have hfile : parseArgs fs depth
                (fileArgs (fs.content (cstr a.tail))) p' = .ok p'' := by
              rw [parseArgs_eq]
              exact hread
            exact ih hfile v hv'
        · exact hrest v hv'

-- =============================================================== the latch

/-- What a unit does to the latch while every language is known. -/
theorem effect_latch (fs : FileSystem) (hlang : ∀ lang, u = .pair Opt.x lang →
      lang ∈ xArgsC ∨ lang ∈ xArgsCXX)
    (hp : p.canDistribute ≠ some false) :
    (effect fs u p).canDistribute =
      if isMode u then some true else p.canDistribute := by
  unfold effect
  rw [if_congr isMode_iff rfl rfl]
  cases hk : kind fs u with
  | mode =>
      cases hc : p.canDistribute with
      | none => simp [modeOption, hc]
      | some b =>
          cases b with
          | true => simp [modeOption, hc]
          | false => exact absurd hc hp
  | language lang =>
      simp only [languageOption, Parser.push, reduceCtorEq, if_false]
      split_ifs with hC hX
      · rfl
      · rfl
      · rcases hlang lang (kind_language hk) with h | h
        · exact absurd h hC
        · exact absurd h hX
  | _ => simp [Parser.push]

/-- Known languages leave the latch to the modes. -/
theorem Reads.latch (h : Reads fs us p q)
    (hlang : ∀ lang, .pair Opt.x lang ∈ us →
      lang ∈ xArgsC ∨ lang ∈ xArgsCXX)
    (hp : p.canDistribute ≠ some false) :
    q.canDistribute =
      if us.any isMode then some true else p.canDistribute := by
  induction h with
  | nil p => rfl
  | @cons u us p q legal rest ih =>
      have hu := effect_latch fs (u := u)
        (fun lang he => hlang lang (he ▸ List.mem_cons_self ..)) hp
      have hrest := ih (fun lang hm => hlang lang (List.mem_cons_of_mem _ hm))
      rw [hu] at hrest
      rw [List.any_cons]
      cases hm : isMode u with
      | true =>
          rw [hm, if_pos rfl] at hrest
          rw [hrest (by simp)]
          simp
      | false =>
          rw [hm, if_neg Bool.false_ne_true] at hrest
          rw [hrest hp, Bool.false_or]

/-- The loop can distribute exactly when it has seen a mode and no unknown
language, in any order. -/
theorem Reads.distributes_iff (h : Reads fs us Parser.empty q) :
    q.canDistribute = some true ↔ us.any isMode = true ∧
      ∀ lang, .pair Opt.x lang ∈ us → lang ∈ xArgsC ∨ lang ∈ xArgsCXX := by
  have hempty : Parser.empty.canDistribute ≠ some false := fun he => by
    cases he
  constructor
  · intro hq
    obtain ⟨-, hlang⟩ := h.languages (by simp [hq])
    have hl := h.latch hlang hempty
    rw [hq] at hl
    refine ⟨?_, hlang⟩
    by_contra hm
    rw [if_neg hm] at hl
    cases hl
  · intro hex
    obtain ⟨hm, hlang⟩ := hex
    rw [h.latch hlang hempty, if_pos hm]

-- ============================================================ the language

/-- An input extension stands for a language. -/
theorem languageOfExtension_ne_none {e : Str} (h : e ∈ inputFileExtension) :
    languageOfExtension e ≠ .NONE := by
  unfold languageOfExtension
  rcases (mem_inputFileExtension e).mp h with hC | hX
  · rw [if_pos hC]
    intro hn
    cases hn
  · rw [if_pos hX]
    split_ifs
    · intro hn
      cases hn
    · intro hn
      cases hn

/-- A parser with an input file has a language. -/
theorem Reads.language (h : Reads fs us Parser.empty q)
    (hne : q.infile ≠ []) : q.language ≠ .NONE := by
  refine h.invariant (P := fun p => p.infile ≠ [] → p.language ≠ .NONE)
    (fun hin => absurd rfl hin) ?_ hne
  intro p u hp _
  unfold effect
  cases hk : kind fs u with
  | input =>
      obtain ⟨a, rfl, hin⟩ := kind_input hk
      simp only [isInputFile, Bool.and_eq_true, decide_eq_true_eq] at hin
      intro _
      dsimp only
      split_ifs with hl
      · exact languageOfExtension_ne_none hin.2
      · exact hl
  | language lang =>
      simp only [languageOption, Parser.push]
      split_ifs
      · intro _ hn
        cases hn
      · intro _ hn
        cases hn
      · exact hp
  | _ => exact hp

-- ========================================================= the constructor

/-- What the constructor adds to the loop's verdict. -/
theorem finish_verdict (h : finish p = .ok q) :
    q.infile = p.infile ∧ (q.canDistribute = some true ↔
      p.canDistribute = some true ∧
        filename p.infile ≠ "conftest.c".toList) := by
  rcases finish_cases h with ⟨hq, hin, hp⟩ | ⟨hp, hname, -, -, rfl⟩
  · refine ⟨hin, fun hd => ?_, fun hd => absurd (hp hd.1) hd.2⟩
    rw [hq] at hd
    cases hd
  · exact ⟨rfl, fun _ => ⟨hp, hname⟩, fun _ => rfl⟩

/-- A parser that can distribute has its output file and its language. -/
theorem finish_results (h : finish p = .ok q)
    (hd : q.canDistribute = some true) :
    q.outfile ≠ [] ∧ q.language ≠ .NONE := by
  rcases finish_cases h with ⟨hq, -, -⟩ | ⟨-, -, -, hl, rfl⟩
  · rw [hq] at hd
    cases hd
  · refine ⟨?_, hl⟩
    dsimp only
    split_ifs with hout
    · simp
    · exact hout

/-- The language error needs an input file without a language. -/
theorem finish_language
    (h : finish p = .error
      (.parserError "failed to determine language".toList)) :
    p.infile ≠ [] ∧ p.language = .NONE := by
  unfold finish at h
  dsimp only at h
  by_cases hconf : p.infile ≠ [] ∧ filename p.infile = "conftest.c".toList
  · rw [if_pos hconf, if_pos (by simp)] at h
    cases h
  · rw [if_neg hconf] at h
    dsimp only at h
    split_ifs at h with hcan hin hout hl hl
    · have hmessage : "input file not specified or does not exist".toList ≠
          "failed to determine language".toList := by decide +kernel
      exact absurd (Exn.parserError.inj (Except.error.inj h)) hmessage
    · exact ⟨hin, hl⟩
    · exact ⟨hin, hl⟩

/-- The checks of the file system raise no parser error. -/
theorem isRegularFile_error {path m : Str} :
    isRegularFile fs path ≠ .error (.parserError m) := by
  unfold isRegularFile
  cases fs.status (cstr path) <;> simp

/-- The loop's messages are not about the language: none starts with an
`f`. -/
theorem parseLoop_message {read : Str → Parser → Except Exn Parser}
    {m : Str}
    (hread : ∀ file p, read file p = .error (.parserError m) →
      m.head? ≠ some 'f')
    (h : parseLoop fs read args p = .error (.parserError m)) :
    m.head? ≠ some 'f' := by
  fun_induction parseLoop fs read args p
  -- a failing callee
  case case4 | case20 =>
    cases h
    rename_i hstatus
    exact absurd hstatus isRegularFile_error
  case case6 =>
    cases h
    rename_i hfile
    exact hread _ _ hfile
  case case9 =>
    cases h
    rename_i hout
    unfold outputOption at hout
    split_ifs at hout
    cases hout
    simp
  case case21 =>
    cases h
    rename_i hin
    unfold checkInputFileCandidate at hin
    split_ifs at hin
    cases hin
    simp
  -- a message of its own, the rest of the loop, or no message
  all_goals first
    | (rename_i ih; exact ih h)
    | (cases h; simp)
    | cases h

/-- The language error is unreachable. -/
theorem parse_language : parse fs depth args ≠
    .error (.parserError "failed to determine language".toList) := by
  have hargs : ∀ p, parseArgs fs depth args p ≠
      .error (.parserError "failed to determine language".toList) := by
    induction depth generalizing args with
    | zero =>
        intro p h
        cases h
    | succ depth ih =>
        intro p h
        refine absurd rfl (parseLoop_message (fun file p hf => ?_) h)
        exact absurd hf (ih p)
  intro h
  unfold parse at h
  cases hq : parseArgs fs depth args Parser.empty with
  | error e =>
      rw [hq] at h
      exact hargs _ (hq.trans h)
  | ok q =>
      rw [hq] at h
      obtain ⟨hne, hl⟩ := finish_language h
      exact (parseArgs_reads hq).language hne hl

-- ============================================================ the theorem

/-- What a parser that can distribute has to go by. -/
structure Distributable (fs : FileSystem) (us : List (Piece Arg))
    (p : Parser) : Prop where
  clear : ∀ u ∈ us, Clear u
  named : p.infile ≠ []
  regular : fs.status (cstr p.infile) = .regular
  extension : extension p.infile ∈ inputFileExtension
  outfile : p.outfile ≠ []
  modeArg : p.modeArg = Opt.c ∨ p.modeArg = Opt.S
  language : p.language ≠ .NONE

/-- A position that names no file is a unit of the expansion. -/
theorem mem_expand (h : namesFile u = false) :
    u ∈ expand fs depth args ↔ u ∈ positions fs depth args := by
  rw [expand_eq, List.mem_filter, h]
  simp

/-- The client distributes exactly when some option is `-c` or `-S`, every
`-x` operand is known and the input is not `conftest.c`, in any order; and
then it has what it needs. The error about the language never comes up. -/
theorem distributes_exactly (fs : FileSystem) (depth : Nat)
    (args : List Arg) :
    (∀ p, parse fs depth args = .ok p →
      (p.canDistribute = some true ↔
        (.single Opt.c ∈ positions fs depth args ∨
          .single Opt.S ∈ positions fs depth args) ∧
        (∀ lang, .pair Opt.x lang ∈ positions fs depth args →
          lang ∈ xArgsC ∨ lang ∈ xArgsCXX) ∧
        filename p.infile ≠ "conftest.c".toList) ∧
      (p.canDistribute = some true →
        Distributable fs (positions fs depth args) p)) ∧
    parse fs depth args ≠
      .error (.parserError "failed to determine language".toList) := by
  refine ⟨fun p h => ⟨?_, fun hd => ?_⟩, parse_language⟩
  · unfold parse at h
    cases hq : parseArgs fs depth args Parser.empty with
    | error e =>
        rw [hq] at h
        cases h
    | ok q =>
        rw [hq] at h
        obtain ⟨hin, hverdict⟩ := finish_verdict h
        have hmode : (expand fs depth args).any isMode = true ↔
            .single Opt.c ∈ positions fs depth args ∨
              .single Opt.S ∈ positions fs depth args := by
          rw [← mem_expand rfl, ← mem_expand rfl, List.any_eq_true]
          simp only [isMode, decide_eq_true_eq]
          constructor
          · intro hex
            obtain ⟨u, hu, rfl | rfl⟩ := hex
            · exact .inl hu
            · exact .inr hu
          · intro hcase
            rcases hcase with hu | hu
            · exact ⟨_, hu, .inl rfl⟩
            · exact ⟨_, hu, .inr rfl⟩
        have hlang : ∀ lang, .pair Opt.x lang ∈ expand fs depth args ↔
            .pair Opt.x lang ∈ positions fs depth args :=
          fun lang => mem_expand rfl
        rw [hverdict, (parseArgs_reads hq).distributes_iff, hmode, hin,
          and_assoc]
        simp only [hlang]
  · have hsends := parse_sends h hd
    obtain ⟨hu, hkind⟩ := hsends.infile_mem
    obtain ⟨a, ha, hin⟩ := kind_input hkind
    cases ha
    have hne := isInputFile_ne_nil hin
    simp only [isInputFile, Bool.and_eq_true, decide_eq_true_eq] at hin
    unfold parse at h
    cases hq : parseArgs fs depth args Parser.empty with
    | error e =>
        rw [hq] at h
        cases h
    | ok q =>
        rw [hq] at h
        obtain ⟨hout, hl⟩ := finish_results h hd
        exact ⟨parseArgs_clear hq, hne, hin.1, hin.2, hout, hsends.mode, hl⟩

end Distplusplus.Client
