/-
When the client's parser ends, and how.

The parser reads response files by calling itself, so it ends when the
files do not lead back to themselves. Not every file that names itself is
read for ever: the second time round it may be an error, since the parser
takes one input file and one `-o`. What decides is whether the two are set
(`slots`): a file that is read again, from within itself, with both as they
were, is read for ever; and with finitely many files every endless run
comes to that (`ReadsAgain`).

Every argument that reaches the last branch is handed to a throwing status
call, as is every response file. A status that cannot be had ends the
parser in an exception nobody expects (`MeetsFault`).
-/
import Distplusplus.Client.Reading
import Distplusplus.Client.Proofs.Tokens

namespace Distplusplus.Client

open Lib Common Piece

variable {fs : FileSystem} {u : Piece Arg} {p p' q : Parser}
variable {args : List Arg} {r : Except Exn Parser} {a : Arg}

-- =================================================================== slots

/-- Are the input file and the output file still open? -/
def slots (p : Parser) : Bool × Bool :=
  (decide (p.infile = []), decide (p.outfile = []))

theorem slots_eq_iff : slots p' = slots p ↔
    (p'.infile = [] ↔ p.infile = []) ∧ (p'.outfile = [] ↔ p.outfile = []) := by
  simp [slots]

theorem objection_slots (h : slots p' = slots p)
    (hno : objection fs u p = none) : objection fs u p' = none := by
  obtain ⟨hin, hout⟩ := slots_eq_iff.mp h
  cases u with
  | dangling o => exact hno
  | pair o x =>
      unfold objection at hno ⊢
      simpa [hout] using hno
  | single a =>
      unfold objection at hno ⊢
      simpa [hin] using hno

theorem effect_slots (h : slots p' = slots p) :
    slots (effect fs u p') = slots (effect fs u p) := by
  obtain ⟨hin, hout⟩ := slots_eq_iff.mp h
  rw [slots_eq_iff, effect_infile, effect_infile, effect_outfile,
    effect_outfile]
  refine ⟨?_, ?_⟩
  · cases isInput fs u with
    | true => rfl
    | false => exact hin
  · cases outputOf u with
    | some f => rfl
    | none => exact hout

/-- Parsers with the same slots accept the same units. -/
theorem reader_respects (fs : FileSystem) : (reader fs).Respects slots := by
  intro u p p' q hp hv
  have h := visit_visits fs u p
  have h' := visit_visits fs u p'
  rw [← reader_visit, hv] at h
  show ∃ q', visit fs u p' = .ok q' ∧ _
  generalize visit fs u p' = r' at h'
  cases h with
  | file hspace hat hf hreg =>
      cases h' with
      | refused hr =>
          exact absurd (hr.resolve_left hspace) (ne_true_of_eq_false
            (not_noDistribute_of_head (by simp [hat])))
      | faulty hf' => exact absurd hf' hf
      | missing _ _ _ hno => exact absurd hreg hno
      | file => exact ⟨p', rfl, hp⟩
      | objection hclosed =>
          rw [opens, if_pos hat] at hclosed
          cases hclosed
      | effect hclosed =>
          rw [opens, if_pos hat] at hclosed
          cases hclosed
  | effect hclosed hf hno hclear =>
      cases h' with
      | refused hr =>
          rcases hr with hr | hr
          · exact absurd hr hclear.1
          · exact absurd hr (ne_true_of_eq_false hclear.2)
      | faulty hf' => exact absurd hf' hf
      | missing _ hat =>
          rw [opens, if_pos hat] at hclosed
          cases hclosed
      | file _ hat =>
          rw [opens, if_pos hat] at hclosed
          cases hclosed
      | objection _ _ hm =>
          rw [objection_slots hp hno] at hm
          cases hm
      | effect => exact ⟨_, rfl, effect_slots hp⟩

-- ============================================================== termination

/-- The file system has finitely many regular files: together they hold
finitely many texts. -/
def FinitelyMany (fs : FileSystem) : Prop :=
  {text | ∃ path, fs.status path = .regular ∧ fs.content path = text}.Finite

/-- The parser comes to a response file again while it reads it, with the
input and the output file set or open as they were. -/
def ReadsAgain (fs : FileSystem) (args : List Arg) : Prop :=
  (reader fs).Loops slots (cut takesOperand args) Parser.empty

theorem openable_finite (hfiles : FinitelyMany fs) :
    (reader fs).openable.Finite := by
  refine (hfiles.image fun text => cut takesOperand (fileArgs text)).subset ?_
  intro vs hvs
  obtain ⟨u, p, q, hv, ho⟩ := hvs
  have h := visit_visits fs u p
  rw [← reader_visit, hv] at h
  have ho : opens fs u = some vs := ho
  cases h with
  | file _ hat _ hreg =>
      rw [opens, if_pos hat] at ho
      cases ho
      exact ⟨_, ⟨_, hreg, rfl⟩, rfl⟩
  | effect hclosed =>
      rw [hclosed] at ho
      cases ho

/-- The constructor ends when its loop does. -/
theorem constructs_ends : (∃ r, Constructs fs args r) ↔
    ∃ r, (reader fs).Ends (cut takesOperand args) Parser.empty r := by
  simp only [constructs_iff, parses_iff]
  constructor
  · intro hex
    obtain ⟨r, ⟨p, hp, -⟩ | ⟨e, he, -⟩⟩ := hex
    · exact ⟨_, hp⟩
    · exact ⟨_, he⟩
  · intro hex
    obtain ⟨r, hr⟩ := hex
    cases r with
    | ok p => exact ⟨_, .inl ⟨p, hr, rfl⟩⟩
    | error e => exact ⟨_, .inr ⟨e, hr, rfl⟩⟩

theorem constructs_of_finite (hfiles : FinitelyMany fs) :
    (∃ r, Constructs fs args r) ↔ ¬ReadsAgain fs args := by
  rw [constructs_ends]
  exact Reader.ends_iff (reader_respects fs) (openable_finite hfiles)

theorem oneResponse_finite (name text : Str) :
    FinitelyMany (oneResponse name text) := by
  apply (Set.finite_singleton text).subset
  intro t ht
  obtain ⟨path, -, rfl⟩ := ht
  rfl

-- ================================================================== faults

/-- The parser comes to an argument whose status cannot be had. -/
def MeetsFault (fs : FileSystem) (args : List Arg) : Prop :=
  ∃ u us q, (reader fs).Steps (cut takesOperand args, Parser.empty)
    (u :: us, q) ∧ Faulty fs u

/-- A parser that ends, ends as expected exactly when it meets no fault. -/
theorem Constructs.tame_iff (h : Constructs fs args r) :
    Tame r ↔ ¬MeetsFault fs args := by
  rw [constructs_iff] at h
  simp only [parses_iff] at h
  constructor
  · intro ht hfault
    obtain ⟨u, us, q, hsteps, hf⟩ := hfault
    rcases visit_cases fs u q with ⟨hno, -⟩ | ⟨-, errno, hv⟩
    · exact hno hf
    · have herr := Reader.ends_error.mpr ⟨u, us, q, hsteps, hv⟩
      rcases h with ⟨p, hp, -⟩ | ⟨e, he, rfl⟩
      · cases hp.det herr
      · cases he.det herr
        exact ht
  · intro hno
    rcases h with ⟨p, -, rfl⟩ | ⟨e, he, rfl⟩
    · exact finish_tame p
    · obtain ⟨u, us, q, hsteps, hv⟩ := Reader.ends_error.mp he
      rcases visit_cases fs u q with ⟨-, ht⟩ | ⟨hf, -⟩
      · rw [← reader_visit, hv] at ht
        exact ht
      · exact absurd ⟨u, us, q, hsteps, hf⟩ hno

-- ============================================================ the theorems

/-- Constructing the parser ends exactly when no response file is read
again from within itself; and where every path has a status, it then ends
as expected. -/
theorem parse_terminates_iff (hfiles : FinitelyMany fs) (args : List Arg) :
    ((∃ r, Constructs fs args r) ↔ ¬ReadsAgain fs args) ∧
      ((∀ path errno, fs.status path ≠ .error errno) →
        ∀ r, Constructs fs args r → Tame r) := by
  refine ⟨constructs_of_finite hfiles, fun hstatus r hr => ?_⟩
  refine hr.tame_iff.mpr fun hfault => ?_
  obtain ⟨u, us, q, -, path, errno, -, herr⟩ := hfault
  exact hstatus _ _ herr

/-- A file that names itself behind an output option: the second time round
the option is one too many, so it is not read again. -/
theorem parse_terminates_output :
    ¬ReadsAgain (oneResponse "a".toList "-o x @a".toList) (table ["@a"]) := by
  have hends : Constructs (oneResponse "a".toList "-o x @a".toList)
      (table ["@a"]) (.error (.parserError
        "multiple output files parsed: x & -o".toList)) :=
    ⟨4, by decide +kernel, nofun⟩
  exact (parse_terminates_iff (oneResponse_finite _ _) _).1.mp ⟨_, hends⟩

/-- A file that contains nothing but its own name runs through any
stack. -/
theorem self_reference :
    FinitelyMany (oneResponse "a".toList "@a".toList) ∧
      ∀ depth, parse (oneResponse "a".toList "@a".toList) depth
        (table ["@a"]) = .error .stackOverflow := by
  refine ⟨oneResponse_finite _ _, fun depth => ?_⟩
  have hfile : fileArgs ((oneResponse "a".toList
      "@a".toList).content (cstr "a".toList)) = table ["@a"] := by
    decide +kernel
  have hloop : ∀ read p, read "a".toList p = .error .stackOverflow →
      parseLoop (oneResponse "a".toList "@a".toList) read (table ["@a"]) p =
        .error .stackOverflow := by
    intro read p hread
    show parseLoop (oneResponse "a".toList "@a".toList) read
      ["@a".toList] p = _
    have hreg : isRegularFile (oneResponse "a".toList "@a".toList)
      "@a".toList.tail = .ok true := rfl
    have hspace : ' ' ∉ "@a".toList := by decide
    have hnd : ¬noDistribute "@a".toList = true := by
      rw [not_noDistribute_of_head (by decide)]
      exact Bool.false_ne_true
    have hat : "@a".toList.head? = some '@' := rfl
    rw [parseLoop, if_neg hspace, if_neg hnd, if_pos hat, hreg]
    dsimp only
    rw [show read "@a".toList.tail p = _ from hread]
  have hargs : ∀ p, parseArgs (oneResponse "a".toList "@a".toList) depth
      (table ["@a"]) p = .error .stackOverflow := by
    induction depth with
    | zero => exact fun p => rfl
    | succ depth ih =>
        intro p
        apply hloop
        show parseArgs _ depth (fileArgs ((oneResponse "a".toList
          "@a".toList).content (cstr "a".toList))) p = _
        rw [hfile]
        exact ih p
  rw [parse, hargs]

/-- A parser that ends, ends as expected exactly when no status query on
its way fails. With finitely many files it ends so exactly when, besides,
no response file is read again. -/
theorem parse_tame_iff (fs : FileSystem) (args : List Arg) :
    (∀ r, Constructs fs args r → (Tame r ↔ ¬MeetsFault fs args)) ∧
      (FinitelyMany fs → ((∃ r, Constructs fs args r ∧ Tame r) ↔
        ¬ReadsAgain fs args ∧ ¬MeetsFault fs args)) := by
  refine ⟨fun r hr => hr.tame_iff, fun hfiles => ?_⟩
  rw [← constructs_of_finite hfiles]
  constructor
  · intro hex
    obtain ⟨r, hr, ht⟩ := hex
    exact ⟨⟨r, hr⟩, hr.tame_iff.mp ht⟩
  · intro hex
    obtain ⟨⟨r, hr⟩, hno⟩ := hex
    exact ⟨r, hr, hr.tame_iff.mpr hno⟩

/-- A directory that may not be searched. -/
def closedDirectory : FileSystem :=
  ⟨fun path => if "closed/".toList.isPrefixOf path then .error 13
    else .notFound, fun _ => []⟩

/-- With an input in another directory the condition is met. -/
theorem parse_tame_plain :
    Tame (parse closedDirectory 1 (table ["-c", "open/a.c"])) ∧
      ¬MeetsFault closedDirectory (table ["-c", "open/a.c"]) := by
  have hp : parse closedDirectory 1 (table ["-c", "open/a.c"]) = .error
      (.parserError "input file not specified or does not exist".toList) := by
    decide +kernel
  have hends : Constructs closedDirectory (table ["-c", "open/a.c"])
      (.error (.parserError
        "input file not specified or does not exist".toList)) :=
    ⟨1, hp, nofun⟩
  have htame : Tame (parse closedDirectory 1 (table ["-c", "open/a.c"])) := by
    rw [hp]
    trivial
  exact ⟨htame, ((parse_tame_iff closedDirectory _).1 _ hends).mp trivial⟩

/-- An input in such a directory: the exception is neither a `ParserError`
nor a `FallbackSignal`. -/
theorem unsearchable_input :
    parse closedDirectory 1 (table ["-c", "closed/a.c"]) =
        .error (.filesystemError 13) ∧
      ∀ r, Constructs closedDirectory (table ["-c", "closed/a.c"]) r →
        ¬Tame r := by
  have hp : parse closedDirectory 1 (table ["-c", "closed/a.c"]) =
      .error (.filesystemError 13) := by decide +kernel
  refine ⟨hp, fun r hr => ?_⟩
  rw [hr.det ⟨1, hp, nofun⟩]
  exact id

end Distplusplus.Client
