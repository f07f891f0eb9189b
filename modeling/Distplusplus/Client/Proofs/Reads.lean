/-
What a run of the parser leaves behind.

One lemma per member: first what a unit does to it, then what a whole run
has done to it, as a function of the units alone.

- `Reads.args`: the tokens of the forwarded units, in order.
- `Reads.infile`: the only input unit, or none.
- `Reads.modeArg`: the last mode unit.
- `Reads.target`: whether some unit named a target.
- `Reads.distributable`: a parser that still thinks it can distribute has
  seen a mode, and no `-x` operand it does not know.

`parse_sends` puts them together for a parser whose command line goes out
(`Sends`): callers cite its fields.
-/
import Distplusplus.Client.Reading

namespace Distplusplus.Client

open Lib Common Piece

variable {fs : FileSystem} {u : Piece Arg} {us : List (Piece Arg)}
variable {p q : Parser}

-- ================================================================== kinds

theorem kind_mode (h : kind fs u = .mode) :
    u = .single Opt.c ∨ u = .single Opt.S := by
  cases u with
  | dangling o => cases h
  | pair o x =>
      simp only [kind] at h
      split_ifs at h
  | single a =>
      simp only [kind] at h
      split_ifs at h with _ hmode
      exact hmode.imp (congrArg _) (congrArg _)

theorem kind_language {lang : Arg} (h : kind fs u = .language lang) :
    u = .pair Opt.x lang := by
  cases u with
  | dangling o => cases h
  | single a =>
      simp only [kind] at h
      split_ifs at h
  | pair o x =>
      simp only [kind] at h
      split_ifs at h with _ hx
      rw [hx, Kind.language.inj h]

theorem kind_input (h : kind fs u = .input) :
    ∃ a, u = .single a ∧ isInputFile fs a = true := by
  cases u with
  | dangling o => cases h
  | pair o x => exact absurd h kind_pair
  | single a =>
      simp only [kind] at h
      split_ifs at h with _ _ _ hin
      exact ⟨a, rfl, hin⟩

/-- An input file has an extension, so its name is not empty. -/
theorem isInputFile_ne_nil {a : Arg} (h : isInputFile fs a = true) :
    a ≠ [] := by
  have hnil : extension [] ∉ inputFileExtension := by decide +kernel
  intro ha
  rw [ha] at h
  simp [isInputFile, hnil] at h

-- ============================================================== arguments

/-- A unit adds its own tokens, or none. -/
theorem effect_args : (effect fs u p).args =
    p.args ++ if forwarded fs u then u.tokens else [] := by
  unfold effect forwarded
  cases hk : kind fs u with
  | output file => simp
  | mode => simp [modeOption]
  | input => simp
  | target t => simp [Parser.push]
  | other => simp [Parser.push]
  | language lang =>
      rw [kind_language hk]
      simp only [languageOption, Parser.push, tokens]
      split_ifs <;> simp

theorem Reads.args (h : Reads fs us p q) :
    q.args = p.args ++ (us.filter (forwarded fs)).flatMap tokens := by
  induction h with
  | nil p => simp
  | @cons u us p q legal rest ih =>
      rw [ih, effect_args, List.append_assoc]
      cases hf : forwarded fs u with
      | true => simp [hf]
      | false => simp [hf]

-- ============================================================= input file

/-- The input unit, as a test. -/
def isInput (fs : FileSystem) (u : Piece Arg) : Bool :=
  decide (kind fs u = .input)

/-- An only input unit is known by its text. -/
theorem isInput_eq_of_only {a : Arg}
    (hone : us.filter (isInput fs) = [.single a]) (hu : u ∈ us) :
    isInput fs u = decide (u = .single a) := by
  rw [Bool.eq_iff_iff, decide_eq_true_iff]
  constructor
  · intro hi
    have hmem := List.mem_filter.mpr ⟨hu, hi⟩
    rw [hone] at hmem
    exact List.mem_singleton.mp hmem
  · intro heq
    have hmem : Piece.single a ∈ us.filter (isInput fs) := by
      rw [hone]
      exact List.mem_singleton_self _
    rw [heq]
    exact (List.mem_filter.mp hmem).2

theorem effect_infile : (effect fs u p).infile =
    if isInput fs u then u.head else p.infile := by
  unfold effect isInput
  cases hk : kind fs u with
  | output file => simp
  | mode => simp [modeOption]
  | input => simp
  | target t => simp [Parser.push]
  | other => simp [Parser.push]
  | language lang =>
      simp only [languageOption, Parser.push]
      split_ifs <;> simp_all

/-- A run finds one input unit or none, and none when it started with
one. -/
theorem Reads.infile (h : Reads fs us p q) :
    (us.filter (isInput fs) = [] ∧ q.infile = p.infile) ∨
      (p.infile = [] ∧ q.infile ≠ [] ∧
        us.filter (isInput fs) = [.single q.infile]) := by
  induction h with
  | nil p => exact .inl ⟨rfl, rfl⟩
  | @cons u us p q legal rest ih =>
      rw [effect_infile] at ih
      cases hin : isInput fs u with
      | false =>
          rw [List.filter_cons_of_neg (by simp [hin])]
          simpa [hin] using ih
      | true =>
          have hk : kind fs u = .input := of_decide_eq_true hin
          obtain ⟨a, hu, ha⟩ := kind_input hk
          have hne := isInputFile_ne_nil ha
          rw [hin, if_pos rfl] at ih
          rw [List.filter_cons_of_pos hin]
          rcases ih with ⟨hnone, hq⟩ | ⟨hnil, _⟩
          · subst hu
            exact .inr ⟨legal.oneInput hk, by rw [hq]; exact hne,
              by rw [hnone, hq, head]⟩
          · subst hu
            exact absurd hnil hne

-- =================================================================== mode

/-- A mode unit: `-c` or `-S`. -/
def isMode (u : Piece Arg) : Bool :=
  decide (u = .single Opt.c ∨ u = .single Opt.S)

theorem isMode_iff : isMode u = true ↔ kind fs u = .mode := by
  have hc : Opt.o.isPrefixOf Opt.c = false := by decide
  have hS : Opt.o.isPrefixOf Opt.S = false := by decide
  rw [isMode, decide_eq_true_iff]
  refine ⟨?_, kind_mode⟩
  intro hcase
  rcases hcase with rfl | rfl
  · simp [kind, hc]
  · simp [kind, hS]

/-- The last mode unit of a list, or what there was before it. -/
def lastMode (us : List (Piece Arg)) (before : Arg) : Arg :=
  ((us.filter isMode).map head).getLastD before

theorem effect_modeArg : (effect fs u p).modeArg =
    if isMode u then u.head else p.modeArg := by
  unfold effect
  rw [if_congr isMode_iff rfl rfl]
  cases hk : kind fs u with
  | output file => simp
  | mode => simp [modeOption]
  | input => simp
  | target t => simp [Parser.push]
  | other => simp [Parser.push]
  | language lang =>
      simp only [languageOption, Parser.push]
      split_ifs <;> simp_all

theorem Reads.modeArg (h : Reads fs us p q) :
    q.modeArg = lastMode us p.modeArg := by
  induction h with
  | nil p => rfl
  | @cons u us p q legal rest ih =>
      rw [ih, effect_modeArg, lastMode, lastMode]
      cases hm : isMode u with
      | true => rw [List.filter_cons_of_pos hm, List.map_cons,
          List.getLastD_cons, if_pos rfl]
      | false => simp [hm]

-- ================================================================= target

/-- A unit that names a target: `-target X` or `--target=X`. -/
def isTarget : Piece Arg → Bool
  | .single a => Opt.targetEq.isPrefixOf a
  | .pair o _ => decide (o = Opt.target)
  | .dangling _ => false

theorem isTarget_iff : isTarget u = true ↔ ∃ t, kind fs u = .target t := by
  cases u with
  | dangling o => simp [isTarget, kind]
  | pair o x =>
      have ho : Opt.target ≠ Opt.o := by decide
      have hx : Opt.target ≠ Opt.x := by decide
      simp only [isTarget, kind, decide_eq_true_eq]
      constructor
      · intro ht
        rw [ht, if_neg ho, if_neg hx, if_pos rfl]
        exact ⟨x, rfl⟩
      · intro h
        obtain ⟨t, h⟩ := h
        split_ifs at h with _ _ ht
        exact ht
  | single a =>
      simp only [isTarget, kind]
      constructor
      · intro ht
        obtain ⟨t, rfl⟩ := List.isPrefixOf_iff_prefix.mp ht
        have ho : Opt.o.isPrefixOf (Opt.targetEq ++ t) = false := rfl
        have hm : ¬(Opt.targetEq ++ t = Opt.c ∨ Opt.targetEq ++ t = Opt.S) :=
          fun h => h.elim (fun h => by cases h) (fun h => by cases h)
        rw [ho, if_neg Bool.false_ne_true, if_neg hm, if_pos ht]
        exact ⟨_, rfl⟩
      · intro h
        obtain ⟨t, h⟩ := h
        split_ifs at h with _ _ ht
        exact ht

theorem isTarget_of_kind (h : ∀ t, kind fs u ≠ .target t) :
    isTarget u = false := by
  rw [Bool.eq_false_iff]
  intro ht
  obtain ⟨t, hk⟩ := isTarget_iff.mp ht
  exact h t hk

theorem effect_target : (effect fs u p).target.isSome =
    (p.target.isSome || isTarget u) := by
  unfold effect
  cases hk : kind fs u with
  | target t => simp [isTarget_iff.mpr ⟨t, hk⟩]
  | language lang =>
      have hne : ∀ t, kind fs u ≠ .target t := by simp [hk]
      rw [isTarget_of_kind hne, Bool.or_false]
      simp only [languageOption, Parser.push]
      split_ifs <;> rfl
  | _ =>
      have hne : ∀ t, kind fs u ≠ .target t := by simp [hk]
      simp [isTarget_of_kind hne, modeOption, Parser.push]

theorem Reads.target (h : Reads fs us p q) :
    q.target.isSome = (p.target.isSome || us.any isTarget) := by
  induction h with
  | nil p => simp
  | cons legal rest ih =>
      rw [ih, effect_target, List.any_cons, Bool.or_assoc]

-- ======================================================= distributability

/-- A parser that can distribute has seen a mode. -/
theorem Reads.mode (h : Reads fs us p q)
    (hp : p.canDistribute = some true →
      p.modeArg = Opt.c ∨ p.modeArg = Opt.S)
    (hq : q.canDistribute = some true) :
    q.modeArg = Opt.c ∨ q.modeArg = Opt.S := by
  refine h.invariant (P := fun p => p.canDistribute = some true →
    p.modeArg = Opt.c ∨ p.modeArg = Opt.S) hp ?_ hq
  intro p u hp _
  unfold effect
  cases hk : kind fs u with
  | mode =>
      intro _
      rcases kind_mode hk with rfl | rfl
      · exact .inl rfl
      · exact .inr rfl
  | language lang =>
      simp only [languageOption, Parser.push]
      split_ifs
      · exact hp
      · exact hp
      · intro hfalse
        cases hfalse
  | _ => exact hp

/-- Once it cannot distribute, a parser never can again; an unknown
language is such a point. -/
theorem effect_canDistribute
    (h : (effect fs u p).canDistribute ≠ some false) :
    p.canDistribute ≠ some false ∧ ∀ lang, u = .pair Opt.x lang →
      lang ∈ xArgsC ∨ lang ∈ xArgsCXX := by
  unfold effect at h
  have hother : (∀ lang, kind fs u ≠ .language lang) →
      ∀ lang, u = .pair Opt.x lang → lang ∈ xArgsC ∨ lang ∈ xArgsCXX := by
    intro hne lang heq
    subst heq
    exact absurd rfl (hne lang)
  cases hk : kind fs u with
  | mode =>
      rw [hk] at h
      refine ⟨fun hp => h ?_, hother (by simp [hk])⟩
      simp [modeOption, hp]
  | language lang =>
      rw [hk] at h
      simp only [languageOption, Parser.push] at h
      have hu := kind_language hk
      split_ifs at h with hC hX
      · refine ⟨h, fun l hl => .inl ?_⟩
        rw [hu] at hl
        cases hl
        exact hC
      · refine ⟨h, fun l hl => .inr ?_⟩
        rw [hu] at hl
        cases hl
        exact hX
      · exact absurd rfl h
  | _ =>
      rw [hk] at h
      exact ⟨h, hother (by simp [hk])⟩

theorem Reads.languages (h : Reads fs us p q)
    (hq : q.canDistribute ≠ some false) :
    p.canDistribute ≠ some false ∧ ∀ lang, .pair Opt.x lang ∈ us →
      lang ∈ xArgsC ∨ lang ∈ xArgsCXX := by
  induction h with
  | nil p => exact ⟨hq, fun lang hl => by cases hl⟩
  | cons legal rest ih =>
      obtain ⟨hp, hrest⟩ := ih hq
      obtain ⟨hfirst, hlang⟩ := effect_canDistribute hp
      refine ⟨hfirst, fun lang hl => ?_⟩
      rcases List.mem_cons.mp hl with heq | hl
      · exact hlang lang heq.symm
      · exact hrest lang hl

-- ============================================================== the result

/-- A parser whose command line goes out, in terms of its units. -/
structure Sends (fs : FileSystem) (us : List (Piece Arg)) (p : Parser) :
    Prop where
  args : p.args = (us.filter (forwarded fs)).flatMap tokens
  infile : us.filter (isInput fs) = [.single p.infile]
  modeArg : p.modeArg = lastMode us []
  mode : p.modeArg = Opt.c ∨ p.modeArg = Opt.S
  target : p.target.isSome = us.any isTarget
  languages : ∀ lang, .pair Opt.x lang ∈ us →
    lang ∈ xArgsC ∨ lang ∈ xArgsCXX
  legal : ∀ u ∈ us, ∃ p, Legal fs p u

/-- The input unit is one of them. -/
theorem Sends.infile_mem (h : Sends fs us p) :
    .single p.infile ∈ us ∧ kind fs (.single p.infile) = .input := by
  have hmem : Piece.single p.infile ∈ us.filter (isInput fs) := by
    rw [h.infile]
    exact List.mem_singleton_self _
  obtain ⟨hu, hin⟩ := List.mem_filter.mp hmem
  exact ⟨hu, of_decide_eq_true hin⟩

/-- What the constructor does: it lowers the latch, or finds everything in
place and settles the output file. -/
theorem finish_cases (h : finish p = .ok q) :
    (q.canDistribute = some false ∧ q.infile = p.infile ∧
      (p.canDistribute = some true →
        filename p.infile = "conftest.c".toList)) ∨
    (p.canDistribute = some true ∧
      filename p.infile ≠ "conftest.c".toList ∧ p.infile ≠ [] ∧
      p.language ≠ .NONE ∧ q = { p with
        canDistribute := some true
        outfile := if p.outfile = [] then stem p.infile ++ ".o".toList
          else p.outfile }) := by
  have hnil : filename [] ≠ "conftest.c".toList := by decide
  unfold finish at h
  dsimp only at h
  by_cases hconf : p.infile ≠ [] ∧ filename p.infile = "conftest.c".toList
  · rw [if_pos hconf, if_pos (by simp)] at h
    cases h
    exact .inl ⟨rfl, rfl, fun _ => hconf.2⟩
  · rw [if_neg hconf] at h
    dsimp only at h
    cases hcan : p.canDistribute.getD false with
    | false =>
        rw [hcan, if_pos (by simp)] at h
        cases h
        refine .inl ⟨rfl, rfl, fun hp => ?_⟩
        rw [hp] at hcan
        cases hcan
    | true =>
        have hp : p.canDistribute = some true := by
          cases hc : p.canDistribute with
          | none => rw [hc] at hcan; cases hcan
          | some b => rw [hc] at hcan; exact congrArg some hcan
        rw [hcan, if_neg (by simp)] at h
        by_cases hin : p.infile = []
        · rw [if_pos hin] at h
          cases h
        · have hname : filename p.infile ≠ "conftest.c".toList :=
            fun hf => hconf ⟨hin, hf⟩
          rw [if_neg hin] at h
          by_cases hout : p.outfile = []
          · rw [if_pos hout] at h ⊢
            dsimp only at h
            split_ifs at h with hl
            cases h
            exact .inr ⟨hp, hname, hin, hl, rfl⟩
          · rw [if_neg hout] at h ⊢
            dsimp only at h
            split_ifs at h with hl
            cases h
            exact .inr ⟨hp, hname, hin, hl, rfl⟩

/-- The constructor leaves all but the output file as the loop had it. -/
theorem finish_distributes (h : finish p = .ok q)
    (hd : q.canDistribute = some true) :
    p.canDistribute = some true ∧ p.infile ≠ [] ∧ q.args = p.args ∧
      q.infile = p.infile ∧ q.modeArg = p.modeArg ∧
      q.target = p.target := by
  rcases finish_cases h with ⟨hq, -, -⟩ | ⟨hp, -, hin, -, rfl⟩
  · rw [hq] at hd
    cases hd
  · exact ⟨hp, hin, rfl, rfl, rfl, rfl⟩

/-- What a parse that can distribute sends. -/
theorem parse_sends {depth : Nat} {args : List Arg}
    (h : parse fs depth args = .ok p) (hd : p.canDistribute = some true) :
    Sends fs (expand fs depth args) p := by
  unfold parse at h
  cases hargs : parseArgs fs depth args Parser.empty with
  | error e => rw [hargs] at h; cases h
  | ok q =>
      rw [hargs] at h
      have hr := parseArgs_reads hargs
      obtain ⟨hq, hne, hA, hI, hM, hT⟩ := finish_distributes h hd
      have hmode := hr.mode (fun h => by cases h) hq
      have hlang := hr.languages (by simp [hq])
      refine ⟨?_, ?_, ?_, hM ▸ hmode, ?_, hlang.2, fun u hu => hr.legal hu⟩
      · rw [hA, hr.args]
        rfl
      · rcases hr.infile with ⟨_, hnil⟩ | ⟨_, _, hin⟩
        · exact absurd hnil hne
        · rw [hI, hin]
      · rw [hM, hr.modeArg]
        rfl
      · rw [hT, hr.target]
        rfl

end Distplusplus.Client
