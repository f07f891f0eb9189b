/-
Whether the local fallback leaves the masquerade directories.

For a masquerade path and for a bare name the handler takes the first match
in `PATH` (`resolve_lookedUp`), and nothing in it skips a masquerade
directory. So what it starts is the client again whenever the first
directory of `PATH` with that name is one of them, which is how a
masquerade directory is meant to be used; and a path that reaches one under
another spelling is not looked up at all.

`fallback_leaves_iff` is the exact condition; `fallback_reenters` is the
usual deployment.
-/
import Distplusplus.Client.Fallback

namespace Distplusplus.Client

open Lib Common

variable {m : Local} {argv0 : Arg} {name : Str}

-- ================================================================= lookup

/-- The directory of the first match. -/
def firstDir (m : Local) (name : Str) : Option Str :=
  m.path.find? fun dir => m.runs (join dir name)

theorem searchIn_eq (path : List Str) : searchIn m name path =
    match path.find? fun dir => m.runs (join dir name) with
    | some dir => join dir name
    | none => [] := by
  induction path with
  | nil => rfl
  | cons dir path ih =>
      rw [searchIn, List.find?_cons, ih]
      cases m.runs (join dir name) with
      | true => rfl
      | false => rfl

theorem searchPath_of_firstDir {dir : Str} (h : firstDir m name = some dir) :
    searchPath m name = join dir name := by
  unfold firstDir at h
  rw [searchPath, searchIn_eq, h]

theorem searchPath_of_none (h : firstDir m name = none) :
    searchPath m name = [] := by
  unfold firstDir at h
  rw [searchPath, searchIn_eq, h]

theorem runs_of_firstDir {dir : Str} (h : firstDir m name = some dir) :
    dir ∈ m.path ∧ m.runs (join dir name) = true :=
  ⟨List.mem_of_find?_eq_some h,
    List.find?_some (p := fun dir => m.runs (join dir name)) h⟩

theorem status_of_runs {file : Str} (h : m.runs file = true) :
    m.status file = .regular := by
  simp only [Local.runs, Bool.and_eq_true, decide_eq_true_eq] at h
  exact h.1

/-- Directories are no programs, so no name is the empty one. -/
theorem name_ne_nil {dir : Str} (h : firstDir m name = some dir) :
    name ≠ [] := by
  intro heq
  subst heq
  obtain ⟨hdir, hruns⟩ := runs_of_firstDir h
  exact m.directories dir hdir (status_of_runs hruns)

/-- Looking for nothing finds nothing. -/
theorem searchPath_nil : searchPath m [] = [] := by
  cases h : firstDir m [] with
  | none => exact searchPath_of_none h
  | some dir => exact absurd rfl (name_ne_nil h)

/-- A joined path without a slash is the name alone. -/
theorem join_no_slash {dir : Str} (hname : name ≠ [])
    (h : '/' ∉ join dir name) : join dir name = name := by
  unfold join at h ⊢
  rw [if_neg hname] at h ⊢
  by_cases hdir : dir = []
  · rw [if_pos (.inl hdir), hdir, List.nil_append]
  · exfalso
    by_cases hlast : dir.getLast? = some '/'
    · rw [if_pos (.inr hlast)] at h
      exact h (List.mem_append_left _ (List.mem_of_getLast? hlast))
    · rw [if_neg (not_or.mpr ⟨hdir, hlast⟩)] at h
      exact h (List.mem_append_right _ (List.mem_cons_self ..))

/-- Looking up again what was found finds it again. -/
theorem searchPath_again (h : samePath (stem (searchPath m name))
      (searchPath m name) = true) :
    searchPath m (stem (searchPath m name)) = searchPath m name := by
  have hslash := no_slash_of_samePath (slash_not_mem_stem _) h
  rw [eq_of_samePath (slash_not_mem_stem _) h]
  cases hd : firstDir m name with
  | none => rw [searchPath_of_none hd, searchPath_nil]
  | some dir =>
      rw [searchPath_of_firstDir hd] at hslash
      have hname := join_no_slash (name_ne_nil hd) hslash
      have hfound : searchPath m name = name :=
        (searchPath_of_firstDir hd).trans hname
      rw [hfound, hfound]

-- ============================================================= resolution

/-- The compilers the handler looks for in `PATH`: masquerade paths and
bare names. -/
def lookedUp (compiler : Arg) : Bool :=
  startsWithAny masquerades compiler || samePath (stem compiler) compiler

/-- What the handler makes of a compiler argument: masquerade paths behind
no `distplusplus` and bare names are looked up. -/
theorem resolve_eq (m : Local) (pos : Nat) (compiler : Arg) :
    resolve m pos compiler =
      if (pos = 0 ∧ startsWithAny masquerades compiler) ∨
          samePath (stem compiler) compiler then searchPath m (stem compiler)
      else compiler := by
  unfold resolve
  dsimp only
  by_cases hmasq : pos = 0 ∧ startsWithAny masquerades compiler = true
  · have hsought : (pos = 0 ∧ startsWithAny masquerades compiler = true) ∨
        samePath (stem compiler) compiler = true := .inl hmasq
    rw [if_pos hmasq, if_pos hsought]
    by_cases hsame : samePath (stem (searchPath m (stem compiler)))
        (searchPath m (stem compiler)) = true
    · rw [if_pos hsame, searchPath_again hsame]
    · rw [if_neg hsame]
  · rw [if_neg hmasq]
    by_cases hbare : samePath (stem compiler) compiler = true
    · rw [if_pos hbare, if_pos (.inr hbare)]
    · rw [if_neg hbare, if_neg (not_or.mpr ⟨hmasq, hbare⟩)]

theorem lookedUp_iff : lookedUp argv0 = true ↔
    (0 = 0 ∧ startsWithAny masquerades argv0 = true) ∨
      samePath (stem argv0) argv0 = true := by
  rw [lookedUp, Bool.or_eq_true]
  simp

/-- What is looked up is the first match. -/
theorem resolve_lookedUp (h : lookedUp argv0 = true) :
    resolve m 0 argv0 = searchPath m (stem argv0) := by
  rw [resolve_eq, if_pos (lookedUp_iff.mp h)]

/-- Any other path is taken as it is. -/
theorem resolve_path (h : lookedUp argv0 = false) :
    resolve m 0 argv0 = argv0 := by
  rw [resolve_eq, if_neg fun hl =>
    ne_true_of_eq_false h (lookedUp_iff.mpr hl)]

/-- A file is there, of whatever kind. -/
def Local.Present (m : Local) (file : Str) : Prop :=
  m.status file = .regular ∨ m.status file = .other

/-- What the handler starts, and with what. -/
theorem runFallback_starts_at {args cargs : List Arg} {compiler : Arg}
    {fallback : Bool} {cin cin' program : Str}
    (hc : (argv0 :: args)[compilerPos argv0]? = some compiler) :
    runFallback m fallback cin (argv0 :: args) = .starts program cargs cin' ↔
      fallback = true ∧ m.Present program ∧
        program = resolve m (compilerPos argv0) compiler ∧
        cargs = (argv0 :: args).drop (compilerPos argv0 + 1) ∧ cin' = cin := by
  rw [runFallback]
  cases fallback with
  | false => simp
  | true =>
      simp only [Bool.not_true, Bool.false_eq_true, if_false, hc, true_and]
      constructor
      · intro h
        split at h
        · cases h
        · cases h
        · rename_i herror hnot
          cases h
          refine ⟨?_, rfl, rfl, rfl⟩
          cases hs : m.status (resolve m (compilerPos argv0) compiler) with
          | regular => exact .inl hs
          | other => exact .inr hs
          | notFound => exact absurd hs hnot
          | error errno => exact absurd hs (herror errno)
      · intro hex
        obtain ⟨hstatus, rfl, rfl, rfl⟩ := hex
        rcases hstatus with hs | hs
        · rw [hs]
        · rw [hs]

/-- What the handler does for a client that was called as the compiler. -/
theorem runFallback_starts {args cargs : List Arg} {cin cin' program : Str}
    (hname : samePath (stem argv0) "distplusplus".toList = false) :
    runFallback m true cin (argv0 :: args) = .starts program cargs cin' ↔
      (m.status program = .regular ∨ m.status program = .other) ∧
        program = resolve m 0 argv0 ∧ cargs = args ∧ cin' = cin := by
  have hpos : compilerPos argv0 = 0 := if_neg (ne_true_of_eq_false hname)
  have hc : (argv0 :: args)[compilerPos argv0]? = some argv0 := by
    rw [hpos, List.getElem?_cons_zero]
  rw [runFallback_starts_at hc, hpos]
  simp [Local.Present]

-- ============================================================ the theorem

/-- The first match in `PATH`, or the path as given, is outside the
masquerade directories. -/
def Leaves (m : Local) (argv0 : Arg) : Prop :=
  if lookedUp argv0 then
    ∀ dir, firstDir m (stem argv0) = some dir →
      m.directory (join dir (stem argv0)) ∉ masquerades
  else
    m.status argv0 = .regular ∨ m.status argv0 = .other →
      m.directory argv0 ∉ masquerades

/-- The fallback starts nothing from a masquerade directory exactly when
it is disabled or the lookup leads out of them. -/
theorem fallback_leaves_iff (m : Local) (fallback : Bool) (cin : Str)
    (args : List Arg)
    (hname : samePath (stem argv0) "distplusplus".toList = false) :
    (∀ program cargs cin', runFallback m fallback cin (argv0 :: args) =
        .starts program cargs cin' → m.directory program ∉ masquerades) ↔
      (fallback = true → Leaves m argv0) := by
  cases fallback with
  | false =>
      refine ⟨fun _ h => (by cases h), fun _ program cargs cin' h => ?_⟩
      cases h
  | true =>
      simp only [runFallback_starts hname, forall_const]
      unfold Leaves
      by_cases hl : lookedUp argv0 = true
      · rw [if_pos hl, resolve_lookedUp hl]
        constructor
        · intro h dir hd
          have hs := status_of_runs (runs_of_firstDir hd).2
          exact h _ _ _ ⟨.inl hs, (searchPath_of_firstDir hd).symm, rfl, rfl⟩
        · intro h program cargs cin' hex
          obtain ⟨hs, rfl, -, -⟩ := hex
          cases hd : firstDir m (stem argv0) with
          | none =>
              rw [searchPath_of_none hd, m.noName] at hs
              rcases hs with hs | hs
              · cases hs
              · cases hs
          | some dir =>
              rw [searchPath_of_firstDir hd]
              exact h dir hd
      · rw [if_neg hl, resolve_path (by simpa using hl)]
        constructor
        · intro h hs
          exact h _ _ _ ⟨hs, rfl, rfl, rfl⟩
        · intro h program cargs cin' hex
          obtain ⟨hs, rfl, -, -⟩ := hex
          exact h hs

/-- A machine with a masquerade directory in front of `/usr/bin`, and
`gcc` in both. -/
def masqueraded : Local where
  path := table ["/usr/lib/distcc", "/usr/bin"]
  status := fun file =>
    if file ∈ table ["/usr/lib/distcc/gcc", "/usr/bin/gcc"] then .regular
    else if file ∈ table ["/usr/lib/distcc", "/usr/bin"] then .other
    else .notFound
  access := fun _ => true
  directory := parentPath
  directories := by decide +kernel
  noName := by decide +kernel

/-- The same machine with the directories the other way round. -/
def unmasked : Local where
  path := table ["/usr/bin", "/usr/lib/distcc"]
  status := masqueraded.status
  access := fun _ => true
  directory := parentPath
  directories := by decide +kernel
  noName := by decide +kernel

/-- There the condition is met: a client called through its link starts
the compiler. -/
theorem fallback_leaves_unmasked :
    runFallback unmasked true [] (table ["/usr/lib/distcc/gcc", "-c"]) =
        .starts "/usr/bin/gcc".toList (table ["-c"]) [] ∧
      unmasked.directory "/usr/bin/gcc".toList ∉ masquerades := by
  have hstarts : runFallback unmasked true []
      (table ["/usr/lib/distcc/gcc", "-c"]) =
      .starts "/usr/bin/gcc".toList (table ["-c"]) [] := by decide +kernel
  have hleaves : Leaves unmasked "/usr/lib/distcc/gcc".toList := by
    unfold Leaves
    rw [if_pos (by decide +kernel)]
    intro dir hd
    have hdir : firstDir unmasked (stem "/usr/lib/distcc/gcc".toList) =
        some "/usr/bin".toList := by decide +kernel
    rw [hdir] at hd
    cases hd
    decide +kernel
  have hname : samePath (stem "/usr/lib/distcc/gcc".toList)
      "distplusplus".toList = false := by decide +kernel
  have hiff := fallback_leaves_iff unmasked true [] (table ["-c"]) hname
  exact ⟨hstarts, hiff.mpr (fun _ => hleaves) _ _ _ hstarts⟩

/-- With the masquerade directory in front the client starts itself. -/
theorem fallback_reenters :
    runFallback masqueraded true [] (table ["gcc", "-c"]) =
        .starts "/usr/lib/distcc/gcc".toList (table ["-c"]) [] ∧
      samePath (stem "gcc".toList) "distplusplus".toList = false ∧
      masqueraded.directory "/usr/lib/distcc/gcc".toList ∈ masquerades := by
  decide +kernel

end Distplusplus.Client
