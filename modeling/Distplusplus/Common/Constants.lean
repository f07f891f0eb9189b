/-
The flag tables (`common/constants.hpp`), and the two ways the parsers look
an argument up in them: as a whole, or by a leading entry.

Every entry of the tables for options starts with a dash
(`options_start_with_dash`): it is what lets an operand without a leading
dash pass both parsers unread. None starts with `-o` (`output_unlisted`):
whatever is to happen to an output option, a parser has to say so itself.
-/
import Distplusplus.Lib.Path

namespace Distplusplus.Common

open Lib

/-- `Arg`: a `char *` of `argv` or a shared string, read as its text. -/
abbrev Arg := Str

inductive Language where
  | NONE
  | C
  | CXX
  deriving DecidableEq, Repr

/-- A table of the source, written as string literals. -/
abbrev table (entries : List String) : List Str := entries.map String.toList

-- ================================================ preprocessor-only flags

def singleArgsCPP : List Str := table [
  "-C", "-CC", "-dD", "-dI", "-dM", "-dN", "-dU", "-fdebug-cpp",
  "-fdirectives-only", "-fdollars-in-identifiers",
  "-fextended-identifiers", "-flarge-source-files", "-fmax-include-depth",
  "-fno-canonical-system-headers", "-fpch-deps", "-fpch-preprocess",
  "-fpreprocessed", "-ftrack-macro-expansion", "-fworking-directory", "-H",
  "-M", "-MD", "-MG", "-MM", "-MMD", "-MP", "-Mno-modules",
  "-no-integrated-cpp", "-P", "-pthread", "-remap", "-traditional",
  "-traditional-cpp", "-trigraphs", "-undef"]

def multiArgsCPP : List Str := table [
  "-imacros", "-include", "-Xpreprocessor", "-MT", "-MF", "-MQ", "-I",
  "-D", "-U", "-iquote", "-isystem", "-idirafter"]

def singleArgsCPPStartsWith : List Str := table ["-I", "-D", "-U", "-Wp,"]

-- ================================================ flags that stay local

def multiArgsNoDistribute : List Str := table [
  "-dumpbase", "-dumpbase-ext", "-dumpdir"]

def singleArgsNoDistribute : List Str := table [
  "-M", "-MM", "-E", "-dr", "-Wa,-a", "-Wa,--MD", "-fbranch-probabilities",
  "--coverage", "-fprofile-arcs", "-ftest-coverage", "-include-pch"]

def singleArgsNoDistributeStartsWith : List Str := table [
  "-fplugin=", "-specs=", "-ffile-prefix-map=", "-fprofile-use",
  "-fauto-profile", "-finstrument-functions-exclude", "-save-temps",
  "-time", "-fdump", "-fdebug-prefix-map=", "-fprofile-prefix-map=",
  "-fmacro-prefix-map="]

-- ======================================================= input languages

def inputFileExtensionC : List Str := table [".c", ".i"]

def inputFileExtensionCXX : List Str := table [
  ".C", ".cc", ".cxx", ".cpp", ".c++", ".cp", ".CPP", ".ii"]

def inputFileExtension : List Str := table [
  ".c", ".C", ".cc", ".cxx", ".cpp", ".c++", ".cp", ".CPP", ".i", ".ii"]

def xArgsC : List Str := table ["c", "cpp-output"]

def xArgsCXX : List Str := table ["c++", "c++-cpp-output"]

-- ============================================ options named in the parsers

namespace Opt

def c : Arg := "-c".toList

def S : Arg := "-S".toList

def E : Arg := "-E".toList

def o : Arg := "-o".toList

def x : Arg := "-x".toList

def target : Arg := "-target".toList

def targetEq : Arg := "--target=".toList

end Opt

-- ================================================================ lookups

/-- `any_of(table, argView.starts_with(·))`. -/
def startsWithAny (entries : List Str) (arg : Arg) : Bool :=
  entries.any fun argComp => argComp.isPrefixOf arg

/-- The three refusals both parsers make before anything else. -/
def noDistribute (arg : Arg) : Bool :=
  decide (arg ∈ singleArgsNoDistribute) ||
  decide (arg ∈ multiArgsNoDistribute) ||
  startsWithAny singleArgsNoDistributeStartsWith arg

/-- The input extensions are the C ones and the C++ ones. -/
theorem mem_inputFileExtension (e : Str) :
    e ∈ inputFileExtension ↔
      e ∈ inputFileExtensionC ∨ e ∈ inputFileExtensionCXX := by
  have hall : ∀ x ∈ inputFileExtension,
      x ∈ inputFileExtensionC ∨ x ∈ inputFileExtensionCXX := by decide +kernel
  have hC : ∀ x ∈ inputFileExtensionC, x ∈ inputFileExtension := by decide +kernel
  have hX : ∀ x ∈ inputFileExtensionCXX, x ∈ inputFileExtension := by decide +kernel
  exact ⟨hall e, fun h => h.elim (hC e) (hX e)⟩

/-- The options the parsers name are neither refused nor for the
preprocessor. -/
theorem named_options : ∀ o ∈ [Opt.c, Opt.S, Opt.x, Opt.target],
    noDistribute o = false ∧ o ∉ multiArgsCPP ∧ o ∉ singleArgsCPP ∧
      startsWithAny singleArgsCPPStartsWith o = false := by decide +kernel

/-- Every option of the tables starts with a dash. -/
theorem options_start_with_dash : ∀ x ∈ singleArgsCPP ++ multiArgsCPP ++
    singleArgsCPPStartsWith ++ multiArgsNoDistribute ++
    singleArgsNoDistribute ++ singleArgsNoDistributeStartsWith,
    x.head? = some '-' := by decide +kernel

/-- A text that starts with an entry starts with a dash when the entry
does. -/
theorem head_of_startsWithAny {entries : List Str} {arg : Arg}
    (hd : ∀ x ∈ entries, x.head? = some '-')
    (h : startsWithAny entries arg = true) : arg.head? = some '-' := by
  obtain ⟨x, hx, hp⟩ := List.any_eq_true.mp h
  obtain ⟨t, rfl⟩ := List.isPrefixOf_iff_prefix.mp hp
  have hhd := hd x hx
  cases x with
  | nil => simp at hhd
  | cons c cs => simpa using hhd

/-- An argument without a leading dash is in no option table. -/
theorem not_noDistribute_of_head {arg : Arg} (h : arg.head? ≠ some '-') :
    noDistribute arg = false := by
  have htab := options_start_with_dash
  simp only [List.mem_append] at htab
  rw [Bool.eq_false_iff]
  intro hnd
  simp only [noDistribute, Bool.or_eq_true, decide_eq_true_eq] at hnd
  rcases hnd with (hs | hm) | hp
  · exact h (htab arg (by simp [hs]))
  · exact h (htab arg (by simp [hm]))
  · exact h (head_of_startsWithAny (fun x hx => htab x (by simp [hx])) hp)

theorem not_mem_multiArgsCPP_of_head {arg : Arg}
    (h : arg.head? ≠ some '-') : arg ∉ multiArgsCPP := by
  have htab := options_start_with_dash
  simp only [List.mem_append] at htab
  exact fun hm => h (htab arg (by simp [hm]))

theorem not_mem_singleArgsCPP_of_head {arg : Arg}
    (h : arg.head? ≠ some '-') : arg ∉ singleArgsCPP := by
  have htab := options_start_with_dash
  simp only [List.mem_append] at htab
  exact fun hm => h (htab arg (by simp [hm]))

theorem not_startsWithCPP_of_head {arg : Arg}
    (h : arg.head? ≠ some '-') :
    startsWithAny singleArgsCPPStartsWith arg = false := by
  have htab := options_start_with_dash
  simp only [List.mem_append] at htab
  rw [Bool.eq_false_iff]
  exact fun hp => h (head_of_startsWithAny
    (fun x hx => htab x (by simp [hx])) hp)

/-- No option of the tables starts with `-o`. -/
theorem options_second_letter : ∀ x ∈ singleArgsCPP ++ multiArgsCPP ++
    singleArgsCPPStartsWith ++ multiArgsNoDistribute ++
    singleArgsNoDistribute ++ singleArgsNoDistributeStartsWith,
    2 ≤ x.length ∧ x.take 2 ≠ Opt.o := by decide +kernel

/-- An output option, joined to its file or not, is in no option table. -/
theorem output_unlisted (file : Arg) :
    noDistribute (Opt.o ++ file) = false ∧ Opt.o ++ file ∉ multiArgsCPP ∧
      Opt.o ++ file ∉ singleArgsCPP ∧
      startsWithAny singleArgsCPPStartsWith (Opt.o ++ file) = false := by
  have hpre : ∀ x ∈ singleArgsCPP ++ multiArgsCPP ++
      singleArgsCPPStartsWith ++ multiArgsNoDistribute ++
      singleArgsNoDistribute ++ singleArgsNoDistributeStartsWith,
      ¬x <+: Opt.o ++ file := by
    intro x hx hp
    obtain ⟨hlen, ho⟩ := options_second_letter x hx
    obtain ⟨t, ht⟩ := hp
    have htake := congrArg (List.take 2) ht
    rw [List.take_append_of_le_length hlen] at htake
    exact ho htake
  have hany : ∀ entries : List Str,
      (∀ x ∈ entries, ¬x <+: Opt.o ++ file) →
        startsWithAny entries (Opt.o ++ file) = false := by
    intro entries hentries
    rw [startsWithAny, List.any_eq_false]
    exact fun x hx hp => hentries x hx (List.isPrefixOf_iff_prefix.mp hp)
  simp only [List.mem_append] at hpre
  have hne : ∀ entries : List Str,
      (∀ x ∈ entries, ¬x <+: Opt.o ++ file) → Opt.o ++ file ∉ entries :=
    fun entries hentries hmem => hentries _ hmem (List.prefix_refl _)
  refine ⟨?_, hne _ fun x hx => hpre x (by simp [hx]),
    hne _ fun x hx => hpre x (by simp [hx]),
    hany _ fun x hx => hpre x (by simp [hx])⟩
  rw [noDistribute, hany _ fun x hx => hpre x (by simp [hx]),
    decide_eq_false (hne _ fun x hx => hpre x (by simp [hx])),
    decide_eq_false (hne _ fun x hx => hpre x (by simp [hx]))]
  rfl

end Distplusplus.Common
