/-
The two spellings of the output option.

`-o X` and `-oX` do the same to a parser without an output file. To a parser
that has one, `-o X` is an error (`multiple output files parsed`) and `-oX`
is not: it puts `X` in the place of the other. So the two are
interchangeable, and two outputs are rejected, in exactly those command
lines that never bring the parser to one output option behind another.
-/
import Distplusplus.Client.Proofs.Inlining
import Distplusplus.Client.Proofs.Tokens

namespace Distplusplus.Client

open Lib Common Piece

variable {fs : FileSystem} {u : Piece Arg} {us vs : List (Piece Arg)}
variable {p q : Parser} {before after args : List Arg} {x : Arg}
variable {r r' : Except Exn Parser}

-- ================================================================ outcomes

/-- The same parser, or the same kind of exception. -/
def SameKind : Except Exn Parser → Except Exn Parser → Prop
  | .ok p, .ok q => p = q
  | .error (.parserError _), .error (.parserError _) => True
  | .error .fallbackSignal, .error .fallbackSignal => True
  | .error (.filesystemError _), .error (.filesystemError _) => True
  | .error .stackOverflow, .error .stackOverflow => True
  | _, _ => False

theorem SameKind.refl (r : Except Exn Parser) : SameKind r r := by
  cases r with
  | ok p => rfl
  | error e => cases e <;> trivial

/-- Two command lines come to the same outcome: each comes to what the
other comes to, up to the text of an error. -/
def SameOutcome (fs : FileSystem) (args args' : List Arg) : Prop :=
  (∀ r, Constructs fs args r → ∃ r', Constructs fs args' r' ∧ SameKind r r') ∧
    ∀ r', Constructs fs args' r' → ∃ r, Constructs fs args r ∧ SameKind r r'

theorem SameOutcome.of_iff {args args' : List Arg}
    (h : ∀ r, Constructs fs args r ↔ Constructs fs args' r) :
    SameOutcome fs args args' :=
  ⟨fun r hr => ⟨r, (h r).mp hr, .refl r⟩,
    fun r hr => ⟨r, (h r).mpr hr, .refl r⟩⟩

/-- The constructor, by what its loop comes to. -/
theorem constructs_iff_ends {args : List Arg} : Constructs fs args r ↔
    ∃ s, (reader fs).Ends (cut takesOperand args) Parser.empty s ∧
      r = s.bind finish := by
  simp only [constructs_iff, parses_iff]
  constructor
  · intro hcase
    rcases hcase with ⟨p, hp, rfl⟩ | ⟨e, he, rfl⟩
    · exact ⟨_, hp, rfl⟩
    · exact ⟨_, he, rfl⟩
  · intro hex
    obtain ⟨s, hs, rfl⟩ := hex
    cases s with
    | ok p => exact .inl ⟨p, hs, rfl⟩
    | error e => exact .inr ⟨e, hs, rfl⟩

-- ======================================================= the two spellings

/-- `-oX` is a token of its own, and none that is refused. -/
theorem attached_clear (hx : x ≠ []) :
    takesOperand (Opt.o ++ x) = false ∧ noDistribute (Opt.o ++ x) = false := by
  obtain ⟨hnd, hm, -, -⟩ := output_unlisted x
  refine ⟨?_, hnd⟩
  rw [Bool.eq_false_iff]
  intro htakes
  rcases takesOperand_cases htakes with h | h | h | h
  · exact hx (by simpa using h)
  · cases h
  · cases h
  · exact hm h

/-- `-oX` sets the output, whatever it was. -/
theorem visit_attached (hx : x ≠ []) (hspace : ' ' ∉ x) (p : Parser) :
    (reader fs).visit (.single (Opt.o ++ x)) p =
      .ok { p with outfile := x } := by
  have hclear : ' ' ∉ Opt.o ++ x := by
    rw [List.mem_append, not_or]
    exact ⟨by decide, hspace⟩
  rw [reader_visit, visit_clear (u := .single (Opt.o ++ x)) hclear
    (attached_clear hx).2]
  show visitSingle fs (Opt.o ++ x) p = _
  unfold visitSingle
  rw [if_neg (by simp [Opt.o]), if_pos (List.isPrefixOf_iff_prefix.mpr
    (List.prefix_append ..))]
  rfl

/-- `-o X` sets it once. -/
theorem visit_apart (x : Arg) (p : Parser) :
    (reader fs).visit (.pair Opt.o x) p = outputOption x p := by
  obtain ⟨hspace, hnd, -⟩ := takesOperand_facts (o := Opt.o) rfl
  rw [reader_visit, visit_clear (u := .pair Opt.o x) hspace hnd, accept,
    visitPair, if_pos rfl]

-- ============================================================= in context

/-- What the arguments in front leave undecided is up to the units
behind. -/
theorem ends_after (hbefore : Complete before) {args : List Arg}
    (hp : Parses fs before Parser.empty (.ok q)) :
    (reader fs).Ends (cut takesOperand (before ++ args)) Parser.empty r ↔
      (reader fs).Ends (cut takesOperand args) q r := by
  rw [cut_append_of_complete hbefore]
  exact Reader.ends_steps ((parses_iff.mp hp).steps _)

/-- Arguments behind an error, or behind no end at all, are not read. -/
theorem constructs_of_not_ok (hbefore : Complete before)
    (hno : ∀ q, ¬Parses fs before Parser.empty (.ok q))
    (args args' : List Arg) :
    Constructs fs (before ++ args) r ↔ Constructs fs (before ++ args') r := by
  simp only [parses_iff] at hno
  simp only [constructs_iff_ends, cut_append_of_complete hbefore,
    Reader.ends_append, hno, false_and, exists_false, false_or]

/-- Where the output is open the spelling makes no difference. -/
theorem ends_open (hx : x ≠ []) (hspace : ' ' ∉ x) (hout : q.outfile = [])
    (after : List Arg) :
    (reader fs).Ends (cut takesOperand ((Opt.o ++ x) :: after)) q r ↔
      (reader fs).Ends (cut takesOperand (Opt.o :: x :: after)) q r := by
  have hapart : (reader fs).visit (.pair Opt.o x) q =
      .ok { q with outfile := x } := by
    rw [visit_apart, outputOption, if_neg (not_not.mpr hout)]
  rw [cut_single (attached_clear hx).1, cut_pair (by rfl),
    Reader.ends_cons (visit_attached hx hspace q), Reader.ends_cons hapart]
  rfl

/-- Where it is open at a token of the command line, the spelling of that
token makes no difference. -/
theorem same_of_open (hbefore : Complete before) (hx : x ≠ [])
    (hspace : ' ' ∉ x) (after : List Arg)
    (hopen : ∀ q, Parses fs before Parser.empty (.ok q) → q.outfile = []) :
    SameOutcome fs (before ++ (Opt.o ++ x) :: after)
      (before ++ Opt.o :: x :: after) := by
  by_cases hok : ∃ q, Parses fs before Parser.empty (.ok q)
  · obtain ⟨q, hp⟩ := hok
    refine .of_iff fun r => ?_
    simp only [constructs_iff_ends, ends_after hbefore hp,
      ends_open hx hspace (hopen q hp)]
  · exact .of_iff fun r =>
      constructs_of_not_ok hbefore (not_exists.mp hok) _ _

-- =========================================================== the property

/-- An output option, in either spelling. -/
def Output (x : Arg) (u : Piece Arg) : Prop :=
  (u = .single (Opt.o ++ x) ∨ u = .pair Opt.o x) ∧ x ≠ [] ∧ ' ' ∉ x

/-- The parser of a command line comes to a unit behind an output option,
either of them in the command line or in a response file, without an
exception on the way. -/
def BehindOutput (fs : FileSystem) (args : List Arg) (u : Piece Arg)
    (q : Parser) : Prop :=
  ∃ us o os p,
    (reader fs).Steps (cut takesOperand args, Parser.empty) (o :: os, p) ∧
    isOutput o = true ∧
    Relation.TransGen (reader fs).Step (o :: os, p) (u :: us, q)

/-- The parser throws at a unit, for an output it has already. -/
def Multiple (fs : FileSystem) (u : Piece Arg) (q : Parser) : Prop :=
  ∃ m, visit fs u q =
    .error (.parserError ("multiple output files parsed: ".toList ++ m))

/-- Either spelling of an output option of the command line gives the same
outcome; and a second output is rejected where it stands, in either
spelling, and the command line with it. -/
structure Interchangeable (fs : FileSystem) (args : List Arg) : Prop where
  same : ∀ before x after, Complete before → x ≠ [] → ' ' ∉ x →
    (args = before ++ (Opt.o ++ x) :: after ∨
      args = before ++ Opt.o :: x :: after) →
    SameOutcome fs (before ++ (Opt.o ++ x) :: after)
      (before ++ Opt.o :: x :: after)
  rejected : ∀ u q x, BehindOutput fs args u q → Output x u →
    Multiple fs (.single (Opt.o ++ x)) q ∧ Multiple fs (.pair Opt.o x) q ∧
    ∃ m, Constructs fs args (.error (.parserError
      ("multiple output files parsed: ".toList ++ m)))

/-- No output option stands behind another one. -/
def OneOutput (fs : FileSystem) (args : List Arg) : Prop :=
  ∀ u q x, BehindOutput fs args u q → ¬Output x u

-- ============================================================ the theorem

/-- A unit that is no output option leaves the output as it is. -/
theorem visit_outfile (h : visit fs u p = .ok q)
    (hu : isOutput u = false) : q.outfile = p.outfile := by
  have hvisits := visit_visits fs u p
  rw [h] at hvisits
  cases hvisits with
  | file => rfl
  | effect => rw [effect_outfile, outputOf_none hu, Option.getD_none]

/-- An output that is set was set by an output option. -/
theorem output_of_steps
    (h : (reader fs).Steps (us, Parser.empty) (vs, q))
    (hout : q.outfile ≠ []) :
    ∃ o os p, (reader fs).Steps (us, Parser.empty) (o :: os, p) ∧
      isOutput o = true ∧
      Relation.TransGen (reader fs).Step (o :: os, p) (vs, q) := by
  generalize ht : (vs, q) = t at h
  induction h generalizing vs q with
  | refl =>
      cases ht
      exact absurd rfl hout
  | tail hsteps hstep ih =>
      cases hstep with
      | @visit u rest p q' hv =>
          cases ht
          cases hu : isOutput u with
          | true => exact ⟨u, rest, p, hsteps, hu, .single (.visit hv)⟩
          | false =>
              rw [visit_outfile hv hu] at hout
              obtain ⟨o, os, p', hto, ho, hfrom⟩ := ih hout rfl
              exact ⟨o, os, p', hto, ho, hfrom.tail (.visit hv)⟩

/-- Behind arguments that leave an output set, an output option stands
behind another one. -/
theorem behindOutput_of_parses (hbefore : Complete before)
    (hp : Parses fs before Parser.empty (.ok q)) (hout : q.outfile ≠ [])
    {rest : List Arg} (hcut : cut takesOperand rest = u :: us) :
    BehindOutput fs (before ++ rest) u q := by
  refine ⟨us, ?_⟩
  rw [cut_append_of_complete hbefore, hcut]
  exact output_of_steps ((parses_iff.mp hp).steps _) hout

/-- The two spellings of the output option are interchangeable, and two
outputs are rejected, exactly where the parser never comes to one behind
another. -/
theorem output_spellings_iff (fs : FileSystem) (args : List Arg) :
    Interchangeable fs args ↔ OneOutput fs args := by
  constructor
  · intro h u q x hbehind hu
    -- the attached spelling is not looked at
    obtain ⟨⟨m, hm⟩, -⟩ := h.rejected u q x hbehind hu
    rw [← reader_visit, visit_attached hu.2.1 hu.2.2] at hm
    cases hm
  · intro h
    refine ⟨fun before x after hbefore hx hspace hargs => ?_,
      fun u q x hbehind hu => absurd hu (h u q x hbehind)⟩
    refine same_of_open hbefore hx hspace after fun q hp => ?_
    by_contra hout
    rcases hargs with rfl | rfl
    · exact h _ q x (behindOutput_of_parses hbefore hp hout
        (cut_single (attached_clear hx).1 after)) ⟨.inl rfl, hx, hspace⟩
    · exact h _ q x (behindOutput_of_parses hbefore hp hout
        (cut_pair (by rfl) x after)) ⟨.inr rfl, hx, hspace⟩

/-- Two outputs, the second one attached: `-oa -ob` is a parser with the
output `b`, where `-oa -o b` is an error. -/
theorem two_outputs :
    ¬Interchangeable (oneFile []) (table ["-oa", "-ob"]) ∧
      Constructs (oneFile []) (table ["-oa", "-ob"]) (.ok { Parser.empty with
        outfile := "b".toList
        canDistribute := some false }) ∧
      Constructs (oneFile []) (table ["-oa", "-o", "b"]) (.error (.parserError
        "multiple output files parsed: a & -o".toList)) := by
  have hattached : Constructs (oneFile []) (table ["-oa", "-ob"])
      (.ok { Parser.empty with
        outfile := "b".toList
        canDistribute := some false }) := ⟨1, by decide +kernel, nofun⟩
  have hapart : Constructs (oneFile []) (table ["-oa", "-o", "b"])
      (.error (.parserError
        "multiple output files parsed: a & -o".toList)) :=
    ⟨1, by decide +kernel, nofun⟩
  refine ⟨fun h => ?_, hattached, hapart⟩
  have hsame := h.same (table ["-oa"]) "b".toList [] (by decide +kernel)
    (by decide) (by decide) (.inl rfl)
  obtain ⟨r, hr, hkind⟩ := hsame.1 _ hattached
  rw [hr.det hapart] at hkind
  cases hkind

end Distplusplus.Client
