/-
The grammar of the server's argument filter.

The loop of `Parser::parse` reads an argument list as units: an entry of
`multiArgsCPP` with the argument after it, or one argument alone. What it
does is a property of the units, whatever the order of the six table
lookups:

- `Refused`: when it throws.
- `kept`: what it returns otherwise.

`filter_grammar` says so, with what follows from it: nothing that is kept
would be dropped or refused, so a second pass changes nothing, and a joined
preprocessor option (`-Idir`) is the same as the split one (`-I dir`).
-/
import Distplusplus.Server.Parser
import Distplusplus.Lib.Units

namespace Distplusplus.Server

open Lib Common Piece

variable {args rest : List Arg} {c : Bool} {out : List Arg}

-- ============================================================= the grammar

/-- The options that take the next argument. -/
def multi (arg : Arg) : Bool := decide (arg ∈ multiArgsCPP)

/-- The units of an argument list. -/
def units (args : List Arg) : List (Piece Arg) := cut multi args

/-- The unit is refused: it starts with an option from the no-distribute
tables, or is an option without its operand. -/
def Barred (u : Piece Arg) : Prop :=
  noDistribute u.head = true ∨ ∃ o, u = .dangling o

/-- The argument list is refused: a unit of it is, or it has no `-c`. -/
def Refused (args : List Arg) : Prop :=
  (∃ u ∈ units args, Barred u) ∨ ∀ u ∈ units args, u.head ≠ Opt.c

/-- The units that are not preprocessor flags. -/
def kept (args : List Arg) : List Arg :=
  ((units args).filter fun u => keeps u.head).flatMap tokens

-- ============================================================ unit by unit

theorem units_single {a : Arg} (h : a ∉ multiArgsCPP) (rest : List Arg) :
    units (a :: rest) = .single a :: units rest :=
  cut_single (p := multi) (decide_eq_false h) rest

theorem units_pair {o : Arg} (h : o ∈ multiArgsCPP) (x : Arg)
    (rest : List Arg) : units (o :: x :: rest) = .pair o x :: units rest :=
  cut_pair (p := multi) (decide_eq_true h) x rest

theorem units_dangling {o : Arg} (h : o ∈ multiArgsCPP) :
    units [o] = [.dangling o] :=
  cut_dangling (p := multi) (decide_eq_true h)

/-- An option is never kept with its operand. -/
theorem keeps_multi {o : Arg} (h : o ∈ multiArgsCPP) : keeps o = false := by
  simp [keeps, h]

/-- `-c` takes no operand. -/
theorem multi_ne_c {o : Arg} (h : o ∈ multiArgsCPP) : o ≠ Opt.c := by
  obtain ⟨-, hm, -, -⟩ := named_options Opt.c (by simp)
  exact fun he => hm (he ▸ h)

/-- Induction along the units of an argument list. -/
theorem units_induction {P : List Arg → Prop} (nil : P [])
    (last : ∀ o, o ∈ multiArgsCPP → P [o])
    (pair : ∀ o x rest, o ∈ multiArgsCPP → P rest → P (o :: x :: rest))
    (single : ∀ a rest, a ∉ multiArgsCPP → P rest → P (a :: rest))
    (args : List Arg) : P args := by
  induction args using cut_induction (p := multi) with
  | nil => exact nil
  | last o h => exact last o (of_decide_eq_true h)
  | pair o x rest h ih => exact pair o x rest (of_decide_eq_true h) ih
  | single a rest h ih => exact single a rest (of_decide_eq_false h) ih

-- ================================================================ the loop

/-- A barred unit ends the loop. -/
theorem parseLoop_barred (h : ∃ u ∈ units args, Barred u) :
    ∃ e, parseLoop args c out = .error e := by
  induction args using units_induction generalizing c out with
  | nil =>
      obtain ⟨u, hu, -⟩ := h
      cases hu
  | last o ho => exact parseLoop_multi_last ho c out
  | pair o x rest ho ih =>
      obtain ⟨u, hu, hb⟩ := h
      rw [parseLoop_multi ho]
      rw [units_pair ho] at hu
      rcases List.mem_cons.mp hu with rfl | hu
      · have hn := (multiArgsCPP_facts o ho).1
        rcases hb with hb | ⟨o', hb⟩
        · rw [head_pair, hn] at hb
          cases hb
        · cases hb
      · exact ih ⟨u, hu, hb⟩
  | single a rest ha ih =>
      obtain ⟨u, hu, hb⟩ := h
      by_cases hn : noDistribute a = true
      · exact parseLoop_refuse hn rest c out
      · rw [parseLoop_single (by simpa using hn) ha]
        rw [units_single ha] at hu
        rcases List.mem_cons.mp hu with rfl | hu
        · rcases hb with hb | ⟨o', hb⟩
          · exact absurd hb hn
          · cases hb
        · exact ih ⟨u, hu, hb⟩

/-- Without one it runs through and keeps what the grammar keeps. -/
theorem parseLoop_kept (h : ∀ u ∈ units args, ¬Barred u) :
    parseLoop args c out =
      .ok (c || (units args).any fun u => decide (u.head = Opt.c),
        out ++ kept args) := by
  induction args using units_induction generalizing c out with
  | nil => simp [parseLoop, units, kept, cut]
  | last o ho =>
      rw [units_dangling ho] at h
      exact absurd (.inr ⟨o, rfl⟩) (h _ (List.mem_singleton_self _))
  | pair o x rest ho ih =>
      rw [units_pair ho] at h
      rw [parseLoop_multi ho, ih fun u hu => h u (List.mem_cons_of_mem _ hu),
        kept, kept, units_pair ho]
      simp [keeps_multi ho, multi_ne_c ho]
  | single a rest ha ih =>
      rw [units_single ha] at h
      have hn : noDistribute a = false := by
        rw [Bool.eq_false_iff]
        exact fun hn => h _ (List.mem_cons_self ..) (.inl hn)
      rw [parseLoop_single hn ha,
        ih fun u hu => h u (List.mem_cons_of_mem _ hu), kept, kept,
        units_single ha]
      rw [List.any_cons, Bool.or_assoc, head_single, List.filter_cons,
        head_single]
      cases hk : keeps a with
      | true => simp
      | false => simp

/-- A prefix that ends between two units leaves the rest to itself. -/
theorem parseLoop_after {before l l' : List Arg}
    (hwhole : ∀ o, .dangling o ∉ units before)
    (h : ∀ c out, parseLoop l c out = parseLoop l' c out) :
    parseLoop (before ++ l) c out = parseLoop (before ++ l') c out := by
  induction before using units_induction generalizing c out with
  | nil => exact h c out
  | last o ho =>
      rw [units_dangling ho] at hwhole
      exact absurd (List.mem_singleton_self _) (hwhole o)
  | pair o x rest ho ih =>
      rw [units_pair ho] at hwhole
      show parseLoop (o :: x :: (rest ++ l)) c out =
        parseLoop (o :: x :: (rest ++ l')) c out
      rw [parseLoop_multi ho, parseLoop_multi ho]
      exact ih fun o ho => hwhole o (List.mem_cons_of_mem _ ho)
  | single a rest ha ih =>
      rw [units_single ha] at hwhole
      show parseLoop (a :: (rest ++ l)) c out =
        parseLoop (a :: (rest ++ l')) c out
      cases hn : noDistribute a with
      | true =>
          rw [parseLoop.eq_def, parseLoop.eq_def (a :: (rest ++ l'))]
          dsimp only
          rw [if_pos hn, if_pos hn]
      | false =>
          rw [parseLoop_single hn ha, parseLoop_single hn ha]
          exact ih fun o ho => hwhole o (List.mem_cons_of_mem _ ho)

-- ============================================================= the filter

/-- A refused argument list throws. -/
theorem parse_refused (h : Refused args) : ∃ e, parse args = .error e := by
  unfold parse
  by_cases hb : ∃ u ∈ units args, Barred u
  · have herr : ∃ e, parseLoop args false [] = .error e := parseLoop_barred hb
    obtain ⟨e, he⟩ := herr
    rw [he]
    exact ⟨e, rfl⟩
  · have hnoc := h.resolve_left hb
    have hnone : (units args).any (fun u => decide (u.head = Opt.c))
        = false := by
      rw [List.any_eq_false]
      exact fun u hu => by simpa using hnoc u hu
    rw [parseLoop_kept fun u hu hbar => hb ⟨u, hu, hbar⟩, hnone]
    exact ⟨_, rfl⟩

/-- Any other returns what the grammar keeps. -/
theorem parse_kept (h : ¬Refused args) : parse args = .ok (kept args) := by
  unfold Refused at h
  rw [not_or] at h
  obtain ⟨hbar, hc⟩ := h
  have hsome : (units args).any (fun u => decide (u.head = Opt.c))
      = true := by
    rw [List.any_eq_true]
    simpa using hc
  unfold parse
  rw [parseLoop_kept fun u hu hb => hbar ⟨u, hu, hb⟩, hsome]
  rfl

/-- What an argument list that parses returns. -/
theorem parse_eq_kept_iff :
    parse args = .ok out ↔ ¬Refused args ∧ out = kept args := by
  constructor
  · intro h
    by_cases hr : Refused args
    · obtain ⟨e, he⟩ := parse_refused hr
      rw [he] at h
      cases h
    · rw [parse_kept hr] at h
      exact ⟨hr, (Except.ok.inj h).symm⟩
  · intro hex
    obtain ⟨hr, rfl⟩ := hex
    exact parse_kept hr

/-- A kept unit is one argument: options with operands are all filtered. -/
theorem kept_single {u : Piece Arg} (hu : u ∈ units args)
    (hb : ¬Barred u) (hk : keeps u.head = true) :
    ∃ a, u = .single a ∧ a ∉ multiArgsCPP := by
  cases u with
  | single a =>
      have hw := wellCut_of_mem_cut hu fun o h => by cases h
      exact ⟨a, rfl, of_decide_eq_false hw⟩
  | pair o x =>
      have hw := wellCut_of_mem_cut hu fun o h => by cases h
      rw [head_pair, keeps_multi (of_decide_eq_true hw)] at hk
      cases hk
  | dangling o => exact absurd (.inr ⟨o, rfl⟩) hb

-- ======================================================= a second pass

/-- The kept units are the units of what is kept. -/
theorem units_kept (h : ∀ u ∈ units args, ¬Barred u) :
    units (kept args) = (units args).filter fun u => keeps u.head := by
  refine cut_flatMap fun u hu => ?_
  obtain ⟨hu, hk⟩ := List.mem_filter.mp hu
  obtain ⟨a, rfl, ha⟩ := kept_single hu (h u hu) hk
  exact decide_eq_false ha

/-- `-c` is kept. -/
theorem keeps_c : keeps Opt.c = true := keeps_named (by simp)

/-- Nothing kept would be refused. -/
theorem not_refused_kept (h : ¬Refused args) : ¬Refused (kept args) := by
  unfold Refused at h ⊢
  rw [not_or] at h ⊢
  obtain ⟨hbar, hc⟩ := h
  have hbar : ∀ u ∈ units args, ¬Barred u := fun u hu hb => hbar ⟨u, hu, hb⟩
  rw [units_kept hbar]
  constructor
  · intro hex
    obtain ⟨u, hu, hb⟩ := hex
    exact hbar u (List.mem_filter.mp hu).1 hb
  · intro hnone
    apply hc
    intro u hu he
    have hk : keeps u.head = true := he ▸ keeps_c
    exact hnone u (List.mem_filter.mpr ⟨hu, hk⟩) he

/-- Nothing kept would be filtered. -/
theorem kept_kept (h : ∀ u ∈ units args, ¬Barred u) :
    kept (kept args) = kept args := by
  rw [kept, units_kept h, List.filter_filter]
  simp only [Bool.and_self]
  rfl

/-- What is kept is neither a preprocessor flag nor a refused one. -/
theorem mem_kept (h : ∀ u ∈ units args, ¬Barred u) {a : Arg}
    (ha : a ∈ kept args) : keeps a = true ∧ noDistribute a = false := by
  obtain ⟨u, hu, hau⟩ := List.mem_flatMap.mp ha
  obtain ⟨hu, hk⟩ := List.mem_filter.mp hu
  obtain ⟨b, rfl, -⟩ := kept_single hu (h u hu) hk
  rw [tokens_single, List.mem_singleton] at hau
  subst hau
  refine ⟨hk, ?_⟩
  rw [Bool.eq_false_iff]
  exact fun hn => h _ hu (.inl hn)

-- ======================================================== joined operands

/-- The options whose operand may be joined to them. -/
def joinable : List Arg := table ["-I", "-D", "-U"]

/-- An entry that neither starts with a prefix of a text nor is one is not
a prefix of the text. -/
theorem startsWithAny_append {entries : List Str} {o x : Arg}
    (h : ∀ e ∈ entries, e.isPrefixOf o = false ∧ o.isPrefixOf e = false) :
    startsWithAny entries (o ++ x) = false := by
  rw [startsWithAny, List.any_eq_false]
  intro e he hp
  obtain ⟨heo, hoe⟩ := h e he
  rw [List.isPrefixOf_iff_prefix] at hp
  rcases List.prefix_or_prefix_of_prefix hp (List.prefix_append o x) with
    hp | hp
  · rw [List.isPrefixOf_iff_prefix.mpr hp] at heo
    cases heo
  · rw [List.isPrefixOf_iff_prefix.mpr hp] at hoe
    cases hoe

/-- A joined option is filtered alone, as the split one with its
operand. -/
theorem parseLoop_joined {o x : Arg} (ho : o ∈ joinable) (hx : x ≠ []) :
    parseLoop ((o ++ x) :: rest) c out = parseLoop (o :: x :: rest) c out := by
  have htab : ∀ o ∈ joinable, o ∈ multiArgsCPP ∧
      o ∈ singleArgsCPPStartsWith ∧ o.isPrefixOf Opt.c = false ∧
      (∀ e ∈ singleArgsNoDistribute ++ multiArgsNoDistribute,
        o.isPrefixOf e = false) ∧
      (∀ e ∈ multiArgsCPP, o.isPrefixOf e = true → e = o) ∧
      ∀ e ∈ singleArgsNoDistributeStartsWith,
        e.isPrefixOf o = false ∧ o.isPrefixOf e = false := by
    decide +kernel
  obtain ⟨hm, hs, hc, hno, hmulti, hpre⟩ := htab o ho
  have hpo : o.isPrefixOf (o ++ x) = true :=
    List.isPrefixOf_iff_prefix.mpr (List.prefix_append o x)
  have hn : noDistribute (o ++ x) = false := by
    have hin : o ++ x ∉ singleArgsNoDistribute ++ multiArgsNoDistribute := by
      intro hmem
      rw [hno _ hmem] at hpo
      cases hpo
    rw [List.mem_append, not_or] at hin
    rw [noDistribute, decide_eq_false hin.1, decide_eq_false hin.2,
      startsWithAny_append hpre]
    rfl
  have hnm : o ++ x ∉ multiArgsCPP := by
    intro hmem
    have := hmulti _ hmem hpo
    exact hx (List.append_right_eq_self.mp this)
  have hne : o ++ x ≠ Opt.c := by
    intro he
    rw [he, hc] at hpo
    cases hpo
  have hk : keeps (o ++ x) = false := by
    have : startsWithAny singleArgsCPPStartsWith (o ++ x) = true :=
      List.any_eq_true.mpr ⟨o, hs, hpo⟩
    simp [keeps, this]
  rw [parseLoop_single hn hnm, parseLoop_multi hm, hk, decide_eq_false hne]
  simp

-- ============================================================ the theorem

/-- The filter is its grammar: it throws exactly on the refused argument
lists and otherwise returns the kept units in order. So nothing returned is
a flag it drops or refuses, a second pass changes nothing, and joining an
operand to its option changes nothing. -/
theorem filter_grammar (args : List Arg) :
    ((∃ signal, parse args = .error signal) ↔ Refused args) ∧
      (∀ out, parse args = .ok out → out = kept args ∧
        (∀ a ∈ out, a ∉ singleArgsCPP ∧ a ∉ multiArgsCPP ∧
          startsWithAny singleArgsCPPStartsWith a = false ∧
          noDistribute a = false) ∧
        parse out = .ok out) ∧
      ∀ before o x rest, args = before ++ (o ++ x) :: rest →
        (∀ o', .dangling o' ∉ units before) → o ∈ joinable → x ≠ [] →
        parse args = parse (before ++ o :: x :: rest) := by
  refine ⟨⟨?_, parse_refused⟩, ?_, ?_⟩
  · intro hex
    obtain ⟨e, he⟩ := hex
    by_contra hr
    rw [parse_kept hr] at he
    cases he
  · intro out h
    obtain ⟨hr, rfl⟩ := parse_eq_kept_iff.mp h
    have hbar : ∀ u ∈ units args, ¬Barred u :=
      fun u hu hb => hr (.inl ⟨u, hu, hb⟩)
    refine ⟨rfl, fun a ha => ?_, ?_⟩
    · obtain ⟨hk, hn⟩ := mem_kept hbar ha
      simp only [keeps, Bool.not_eq_true', Bool.or_eq_false_iff,
        decide_eq_false_iff_not] at hk
      exact ⟨hk.1.1, hk.1.2, hk.2, hn⟩
    · rw [parse_kept (not_refused_kept hr), kept_kept hbar]
  · rintro before o x rest rfl hwhole ho hx
    unfold parse
    rw [parseLoop_after hwhole fun c out => parseLoop_joined ho hx]

end Distplusplus.Server
