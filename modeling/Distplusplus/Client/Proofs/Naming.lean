/-
Which compiler runs, and which one was named.

The client takes the stem of the compiler argument where it means its file
name: for the request, for the preprocessor, for the lookup behind a
masquerade path, and to tell a bare name from a path. The two are the same
for a name without an extension; but a version is one (`gcc-11.2.0`), and
then another compiler is asked for, or none is found.

The handler also looks in one place only: a path is not looked for in
`PATH`, and a path that begins like a masquerade directory is looked for
nowhere else.

`RunsNamed` is what the client should do, `runs_named_iff` when it does:
where the stem is the file name and the one place is as good as the other
(`RightPlace`), and otherwise only if two accidents meet. The build target
in front of the stem may happen to make up the file name (`MadeUp`), and the
machine may be such that the wrong lookup does not matter (`Harmless`).
-/
import Distplusplus.Client.Func
import Distplusplus.Client.Proofs.Masquerade

namespace Distplusplus.Client

open Lib Common

variable {m : Local} {target argv0 compiler name : Arg} {args : List Arg}
variable {pos : Nat}

-- ======================================================= the specification

/-- A gcc or g++ that does not name its target. -/
def Unprefixed (name : Str) : Prop :=
  "g++".toList.isPrefixOf name ∨ "gcc".toList.isPrefixOf name

instance : Decidable (Unprefixed name) := inferInstanceAs (Decidable (_ ∨ _))

/-- `name` names the compiler of `argv`: its file name, with the build
target in front for an unprefixed one, or not. -/
def Names (target compiler name : Arg) : Prop :=
  name = filename compiler ∨
    Unprefixed (filename compiler) ∧
      name = target ++ "-".toList ++ filename compiler

/-- A program of that name can be started from `PATH`. -/
def InPath (m : Local) (name : Str) : Prop :=
  ∃ dir ∈ m.path, m.runs (join dir name) = true

/-- There is a program at the path that is given, and it is not a link to
the client. -/
def AtPath (m : Local) (compiler : Arg) : Prop :=
  '/' ∈ compiler ∧ m.runs compiler = true ∧
    m.directory compiler ∉ masquerades

/-- The compiler is there: in `PATH`, or at the path that is given. -/
def Available (m : Local) (compiler : Arg) : Prop :=
  InPath m (filename compiler) ∨ AtPath m compiler

/-- The compiler that runs is the one that was named, remotely and
locally. -/
structure RunsNamed (m : Local) (target : Arg) (argv : List Arg)
    (compiler : Arg) : Prop where
  requested : ∀ p uuid type content cwd, Names target compiler
    (compileRequest (stem compiler) target p uuid type content cwd).compiler
  preprocesses : preprocessor m target compiler = [] ∨
    ∃ dir ∈ m.path, ∃ name, Names target compiler name ∧
      preprocessor m target compiler = join dir name
  started : ∀ fallback cin program cargs cin',
    runFallback m fallback cin argv = .starts program cargs cin' →
      filename program = filename compiler
  found : Available m compiler → ∀ cin, ∃ program cargs,
    runFallback m true cin argv = .starts program cargs cin ∧
      m.runs program = true

/-- The build target makes up for the extension the stem is without. -/
def MadeUp (target compiler : Arg) : Prop :=
  mapCompiler (stem compiler) = .gcc ∧ Unprefixed (stem compiler) ∧
    filename compiler = target ++ "-".toList ++ stem compiler

/-- Behind what looks like a masquerade path the handler looks in `PATH`,
and behind another path nowhere else: the compiler is there too, or it is
not in the other place either. -/
def RightPlace (m : Local) (pos : Nat) (compiler : Arg) : Prop :=
  if pos = 0 ∧ startsWithAny masquerades compiler = true then
    InPath m (filename compiler) ∨ ¬AtPath m compiler
  else '/' ∈ compiler → m.runs compiler = true ∨
    ¬InPath m (filename compiler)

/-- Looking for the wrong name changes nothing. -/
def Harmless (m : Local) (pos : Nat) (compiler : Arg) : Prop :=
  if pos = 0 ∧ startsWithAny masquerades compiler = true then
    ¬InPath m (stem compiler) ∧ ¬Available m compiler
  else m.runs compiler = true ∨ ¬InPath m (filename compiler)

-- ============================================================== remotely

theorem compileRequest_compiler (p : Parser) (uuid : Str)
    (type : CompressionType) (content cwd : Str) :
    (compileRequest (stem compiler) target p uuid type content cwd).compiler =
      compilerName target compiler := rfl

/-- The two names the client can send. -/
theorem compilerName_cases (target compiler : Arg) :
    mapCompiler (stem compiler) = .gcc ∧ Unprefixed (stem compiler) ∧
        compilerName target compiler = target ++ "-".toList ++ stem compiler ∨
      compilerName target compiler = stem compiler := by
  unfold compilerName commandCompiler
  split_ifs with h
  · exact .inl ⟨h.1, h.2, rfl⟩
  · exact .inr rfl

theorem length_stem_le (p : Str) : (stem p).length ≤ (filename p).length :=
  (stem_starts_filename p).length_le

/-- The name that is sent names the compiler if the stem is the file name,
or by accident. -/
theorem names_compilerName_iff :
    Names target compiler (compilerName target compiler) ↔
      stem compiler = filename compiler ∨ MadeUp target compiler := by
  unfold Names MadeUp
  have hlen := length_stem_le compiler
  rcases compilerName_cases target compiler with ⟨hgcc, hpre, hname⟩ | hname
  · rw [hname]
    constructor
    · intro h
      rcases h with h | ⟨-, h⟩
      · exact .inr ⟨hgcc, hpre, h.symm⟩
      · exact .inl (List.append_cancel_left h)
    · intro h
      rcases h with h | ⟨-, -, h⟩
      · rw [h] at hpre ⊢
        exact .inr ⟨hpre, rfl⟩
      · exact .inl h.symm
  · rw [hname]
    constructor
    · intro h
      rcases h with h | ⟨-, h⟩
      · exact .inl h
      · rw [h] at hlen
        simp only [List.length_append] at hlen
        have hdash : ("-".toList : Str).length = 1 := rfl
        omega
    · intro h
      rcases h with h | ⟨hgcc, hpre, h⟩
      · exact .inl h
      · -- then the other name would have been sent
        have hboth : compilerName target compiler =
            target ++ "-".toList ++ stem compiler := by
          unfold compilerName commandCompiler
          exact if_pos ⟨hgcc, hpre⟩
        rw [hname] at hboth
        exact .inl (hboth.trans h.symm)

/-- What preprocesses has the name that is sent. -/
theorem preprocessor_cases (m : Local) (target compiler : Arg) :
    preprocessor m target compiler = [] ∨
      ∃ dir ∈ m.path, preprocessor m target compiler =
        join dir (compilerName target compiler) := by
  unfold preprocessor
  cases h : firstDir m (compilerName target compiler) with
  | none => exact .inl (searchPath_of_none h)
  | some dir =>
      exact .inr ⟨dir, (runs_of_firstDir h).1, searchPath_of_firstDir h⟩

-- =============================================================== locally

/-- What is in `PATH` is found, with the name it was looked for. -/
theorem searchPath_found (hslash : '/' ∉ name) (h : InPath m name) :
    m.runs (searchPath m name) = true ∧
      filename (searchPath m name) = name := by
  cases hd : firstDir m name with
  | none =>
      obtain ⟨dir, hdir, hruns⟩ := h
      have hno := List.find?_eq_none.mp hd dir hdir
      exact absurd hruns hno
  | some dir =>
      rw [searchPath_of_firstDir hd]
      exact ⟨(runs_of_firstDir hd).2,
        filename_join hslash (name_ne_nil hd) dir⟩

/-- What is not, is not. -/
theorem searchPath_missing (h : ¬InPath m name) :
    ¬m.Present (searchPath m name) := by
  cases hd : firstDir m name with
  | some dir =>
      obtain ⟨hdir, hruns⟩ := runs_of_firstDir hd
      exact absurd ⟨dir, hdir, hruns⟩ h
  | none =>
      rw [searchPath_of_none hd]
      intro hp
      unfold Local.Present at hp
      rw [m.noName] at hp
      rcases hp with hp | hp
      · cases hp
      · cases hp

/-- A program can be run, so it is there. -/
theorem present_of_runs {file : Str} (h : m.runs file = true) :
    m.Present file := .inl (status_of_runs h)

theorem present_searchPath_iff (hslash : '/' ∉ name) :
    m.Present (searchPath m name) ↔ InPath m name := by
  constructor
  · intro hp
    by_contra h
    exact searchPath_missing h hp
  · exact fun h => present_of_runs (searchPath_found hslash h).1

theorem runs_searchPath_iff (hslash : '/' ∉ name) :
    m.runs (searchPath m name) = true ↔ InPath m name :=
  ⟨fun h => (present_searchPath_iff hslash).mp (present_of_runs h),
    fun h => (searchPath_found hslash h).1⟩

/-- The program that stands for the compiler is right: it has its name if
it is there, and it can be run if the compiler can. -/
def Resolves (m : Local) (pos : Nat) (compiler : Arg) : Prop :=
  (m.Present (resolve m pos compiler) →
    filename (resolve m pos compiler) = filename compiler) ∧
  (Available m compiler → m.runs (resolve m pos compiler) = true)

/-- A path that is resolved to itself is right if there is a program at it,
or none to be found in `PATH`. -/
theorem resolves_itself (h : resolve m pos compiler = compiler) :
    Resolves m pos compiler ↔
      m.runs compiler = true ∨ ¬InPath m (filename compiler) := by
  unfold Resolves Available
  rw [h]
  constructor
  · intro h
    by_cases hin : InPath m (filename compiler)
    · exact .inl (h.2 (.inl hin))
    · exact .inr hin
  · intro h
    refine ⟨fun _ => rfl, fun havail => ?_⟩
    rcases havail with hin | ⟨-, hruns, -⟩
    · exact h.resolve_right (not_not_intro hin)
    · exact hruns

/-- The stem that is looked for is right if it is the file name, and can be
found if the compiler is anywhere; otherwise neither may be there. -/
theorem resolves_searched
    (h : resolve m pos compiler = searchPath m (stem compiler)) :
    Resolves m pos compiler ↔
      (InPath m (stem compiler) → stem compiler = filename compiler) ∧
        (Available m compiler → InPath m (stem compiler)) := by
  have hstem := slash_not_mem_stem compiler
  unfold Resolves
  rw [h, present_searchPath_iff hstem, runs_searchPath_iff hstem]
  refine and_congr_left fun _ => forall_congr' fun hin => ?_
  rw [(searchPath_found hstem hin).2]

/-- With the right name, it is a matter of the place. -/
theorem resolves_same (hsame : stem compiler = filename compiler) :
    Resolves m pos compiler ↔ RightPlace m pos compiler := by
  unfold RightPlace
  by_cases hmasq : pos = 0 ∧ startsWithAny masquerades compiler = true
  · rw [if_pos hmasq, resolves_searched
      (by rw [resolve_eq, if_pos (.inl hmasq)]), hsame]
    unfold Available
    tauto
  · rw [if_neg hmasq]
    by_cases hslash : '/' ∈ compiler
    · have hbare : ¬samePath (stem compiler) compiler = true := fun hbare =>
        no_slash_of_samePath (slash_not_mem_stem _) hbare hslash
      rw [resolves_itself
        (by rw [resolve_eq, if_neg (not_or.mpr ⟨hmasq, hbare⟩)])]
      exact ⟨fun h _ => h, fun h => h hslash⟩
    · have hbare : samePath (stem compiler) compiler = true := by
        rw [hsame, filename_of_no_slash hslash]
        simp [samePath]
      rw [resolves_searched (by rw [resolve_eq, if_pos (.inr hbare)]), hsame]
      refine iff_of_true ⟨fun _ => rfl, fun havail => ?_⟩
        fun h => absurd h hslash
      rcases havail with hin | ⟨h, -⟩
      · exact hin
      · exact absurd h hslash

/-- With another name, it has to make no difference. -/
theorem resolves_other (hother : stem compiler ≠ filename compiler) :
    Resolves m pos compiler ↔ Harmless m pos compiler := by
  unfold Harmless
  by_cases hmasq : pos = 0 ∧ startsWithAny masquerades compiler = true
  · rw [if_pos hmasq, resolves_searched
      (by rw [resolve_eq, if_pos (.inl hmasq)])]
    tauto
  · have hbare : ¬samePath (stem compiler) compiler = true := by
      intro hbare
      have hslash := no_slash_of_samePath (slash_not_mem_stem _) hbare
      have hsame := eq_of_samePath (slash_not_mem_stem _) hbare
      exact hother (hsame.trans (filename_of_no_slash hslash).symm)
    rw [if_neg hmasq, resolves_itself
      (by rw [resolve_eq, if_neg (not_or.mpr ⟨hmasq, hbare⟩)])]

/-- The build target takes up room. -/
theorem MadeUp.other (h : MadeUp target compiler) :
    stem compiler ≠ filename compiler := by
  intro hsame
  have hname := congrArg List.length h.2.2
  rw [← hsame] at hname
  simp only [List.length_append] at hname
  have hdash : ("-".toList : Str).length = 1 := rfl
  omega

-- ============================================================ the theorem

/-- The client is right about the compiler's name and the program. -/
theorem runsNamed_iff_resolves
    (hc : (argv0 :: args)[compilerPos argv0]? = some compiler) :
    RunsNamed m target (argv0 :: args) compiler ↔
      Names target compiler (compilerName target compiler) ∧
        Resolves m (compilerPos argv0) compiler := by
  constructor
  · intro h
    refine ⟨h.requested Parser.empty [] CompressionType.NONE [] [], ?_, ?_⟩
    · exact fun hp => h.started true [] _ _ []
        ((runFallback_starts_at hc).mpr ⟨rfl, hp, rfl, rfl, rfl⟩)
    · intro havail
      obtain ⟨program, cargs, hstarts, hruns⟩ := h.found havail []
      obtain ⟨-, -, rfl, -⟩ := (runFallback_starts_at hc).mp hstarts
      exact hruns
  · intro h
    obtain ⟨hnames, hname, hfound⟩ := h
    refine ⟨fun p uuid type content cwd => hnames, ?_, ?_, ?_⟩
    · rcases preprocessor_cases m target compiler with hnone | ⟨dir, hdir, he⟩
      · exact .inl hnone
      · exact .inr ⟨dir, hdir, _, hnames, he⟩
    · intro fallback cin program cargs cin' hstarts
      obtain ⟨-, hp, rfl, -⟩ := (runFallback_starts_at hc).mp hstarts
      exact hname hp
    · exact fun havail cin => ⟨_, _, (runFallback_starts_at hc).mpr
        ⟨rfl, present_of_runs (hfound havail), rfl, rfl, rfl⟩,
        hfound havail⟩

/-- The compiler that runs is the one that was named exactly when the name
has no extension and the place is right, or by the two accidents. -/
theorem runs_named_iff
    (hc : (argv0 :: args)[compilerPos argv0]? = some compiler) :
    RunsNamed m target (argv0 :: args) compiler ↔
      stem compiler = filename compiler ∧
          RightPlace m (compilerPos argv0) compiler ∨
        MadeUp target compiler ∧
          Harmless m (compilerPos argv0) compiler := by
  rw [runsNamed_iff_resolves hc, names_compilerName_iff]
  by_cases hsame : stem compiler = filename compiler
  · have hno : ¬MadeUp target compiler := fun h => h.other hsame
    simp only [hsame, hno, true_and, false_and, or_false]
    exact resolves_same hsame
  · simp only [hsame, false_or, false_and, resolves_other hsame]

/-- `gcc` has no extension, and is no path. -/
theorem runs_named_gcc :
    RunsNamed unmasked "x86_64-pc-linux-gnu".toList (table ["gcc", "-c"])
      "gcc".toList :=
  (runs_named_iff (by decide +kernel)).mpr
    (.inl ⟨by decide +kernel, fun h => absurd h (by decide)⟩)

/-- A machine with one compiler, whose name has a version in it. -/
def versioned : Local where
  path := table ["/usr/bin"]
  status := fun file =>
    if file = "/usr/bin/gcc-11.2.0".toList then .regular
    else if file = "/usr/bin".toList then .other
    else .notFound
  access := fun _ => true
  directory := parentPath
  directories := by decide +kernel
  noName := by decide +kernel

/-- There the servers are asked for gcc-11.2, and the fallback does not find
the compiler, though it is in `PATH`. -/
theorem version_cut_off :
    ¬RunsNamed versioned "x86_64-pc-linux-gnu".toList
        (table ["gcc-11.2.0", "-c"]) "gcc-11.2.0".toList ∧
      compilerName "x86_64-pc-linux-gnu".toList "gcc-11.2.0".toList =
        "x86_64-pc-linux-gnu-gcc-11.2".toList ∧
      versioned.runs (join "/usr/bin".toList "gcc-11.2.0".toList) = true ∧
      runFallback versioned true [] (table ["gcc-11.2.0", "-c"]) =
        .notFound "specified compiler gcc-11.2.0 not found".toList := by
  have hname : compilerName "x86_64-pc-linux-gnu".toList
      "gcc-11.2.0".toList = "x86_64-pc-linux-gnu-gcc-11.2".toList := by
    decide +kernel
  refine ⟨fun h => ?_, hname, by decide +kernel, by decide +kernel⟩
  have hnames := h.requested Parser.empty [] CompressionType.NONE [] []
  rw [compileRequest_compiler, hname] at hnames
  have hno : ¬("x86_64-pc-linux-gnu-gcc-11.2".toList =
        filename "gcc-11.2.0".toList ∨
      Unprefixed (filename "gcc-11.2.0".toList) ∧
        "x86_64-pc-linux-gnu-gcc-11.2".toList =
          "x86_64-pc-linux-gnu".toList ++ "-".toList ++
            filename "gcc-11.2.0".toList) := by decide +kernel
  exact hno hnames

end Distplusplus.Client
