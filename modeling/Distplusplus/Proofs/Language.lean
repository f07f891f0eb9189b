/-
The language of the input file, before and after it is moved.

A compiler reads `-x` by position: it applies to the files after it, the
last one before a file wins, and a file without one goes by its extension
(`languageIn`; what an extension stands for is the compiler's, so it is a
parameter). The client takes the input file out of its place and puts it at
the end of both commands, where every `-x` of the line is in front of it.

`language_kept_iff` says when that changes nothing: when the last `-x`
behind the file, if there is one, names the language the file has anyway.
-/
import Distplusplus.Client.Proofs.Request

namespace Distplusplus

open Lib Common Piece Client

variable {fs : FileSystem} {us vs : List (Piece Arg)}

-- ================================================================ the rule

/-- The operand of a `-x` unit. -/
def xOperand : Piece Arg → Option Arg
  | .pair o lang => if o = Opt.x then some lang else none
  | _ => none

/-- The units before a file. -/
def before (file : Arg) (us : List (Piece Arg)) : List (Piece Arg) :=
  us.takeWhile fun u => decide (u ≠ .single file)

/-- The units from the file on. -/
def behindFile (file : Arg) (us : List (Piece Arg)) : List (Piece Arg) :=
  us.dropWhile fun u => decide (u ≠ .single file)

/-- The language a command gives a file. -/
def languageIn (byExtension : Str → Arg) (us : List (Piece Arg))
    (file : Arg) : Arg :=
  ((before file us).filterMap xOperand).getLastD
    (byExtension (extension file))

/-- The last `-x` behind the file, if any, names the language it has. -/
def Settled (byExtension : Str → Arg) (us : List (Piece Arg))
    (file : Arg) : Prop :=
  ∀ lang ∈ ((behindFile file us).filterMap xOperand).getLast?,
    lang = languageIn byExtension us file

/-- The file is behind units that do not mention it. -/
theorem before_append {file : Arg} (h : .single file ∉ us) :
    before file (us ++ .single file :: vs) = us := by
  unfold before
  rw [List.takeWhile_append_of_pos]
  · simp
  · intro u hu
    exact decide_eq_true fun he => h (he ▸ hu)

-- ========================================================== moving the file

variable {p : Parser}

/-- The client passes every `-x` on. -/
theorem xOperands_forwarded :
    (us.filter (forwarded fs)).filterMap xOperand =
      us.filterMap xOperand := by
  induction us with
  | nil => rfl
  | cons u us ih =>
      cases hf : forwarded fs u with
      | true =>
          rw [List.filter_cons_of_pos hf, List.filterMap_cons,
            List.filterMap_cons, ih]
      | false =>
          have hnone : xOperand u = none := by
            cases hx : xOperand u with
            | none => rfl
            | some lang =>
                cases u with
                | single a => cases hx
                | dangling o => cases hx
                | pair o x =>
                    simp only [xOperand] at hx
                    split_ifs at hx with ho
                    subst ho
                    cases hf
          rw [List.filter_cons_of_neg (by simp [hf]), List.filterMap_cons,
            hnone, ih]

/-- The input file is not among the units of a command. -/
theorem Client.Sends.infile_not_sent (h : Sends fs us p)
    (compilerType : CompilerType) (buildTarget : Arg) :
    .single p.infile ∉ commandUnits fs compilerType buildTarget us := by
  intro hmem
  rcases List.mem_append.mp hmem with hmem | hmem
  · have hf := (List.mem_filter.mp hmem).2
    rw [forwarded, h.infile_mem.2] at hf
    cases hf
  · unfold addedUnit at hmem
    split_ifs at hmem
    · cases List.mem_singleton.mp hmem
    · cases hmem

/-- The language of the input file at the end of a generated command, behind
the shared arguments and some units without a `-x`. -/
theorem Client.Sends.languageIn_moved (h : Sends fs us p)
    (byExtension : Str → Arg) (compilerType : CompilerType)
    (buildTarget : Arg) (middle : List (Piece Arg)) (rest : List Arg)
    (hcut : ∀ u ∈ middle, u.WellCut takesOperand)
    (hx : middle.filterMap xOperand = [])
    (hfile : .single p.infile ∉ middle) :
    languageIn byExtension (cut takesOperand (Client.commandArgs
        compilerType buildTarget p ++ (middle.flatMap tokens ++
          p.infile :: rest))) p.infile =
      ((behindFile p.infile us).filterMap xOperand).getLast?.getD
        (languageIn byExtension us p.infile) := by
  obtain ⟨_, hlegal⟩ := h.legal _ h.infile_mem.1
  have hinCut : takesOperand p.infile = false := hlegal.wellCut
  have hsplit : us.filterMap xOperand =
      (before p.infile us).filterMap xOperand ++
        (behindFile p.infile us).filterMap xOperand := by
    rw [← List.filterMap_append, before, behindFile,
      List.takeWhile_append_dropWhile]
  have hadded : (addedUnit compilerType buildTarget us).filterMap xOperand =
      [] := by
    unfold addedUnit
    split_ifs
    · rfl
    · rfl
  rw [h.commandArgs, cut_append fun u hu => (h.sent hu).wellCut,
    cut_append hcut, cut_single hinCut, ← List.append_assoc, languageIn,
    before_append, List.filterMap_append, hx, List.append_nil, commandUnits,
    List.filterMap_append, hadded, List.append_nil, xOperands_forwarded,
    hsplit, List.getLastD_eq_getLast?, List.getLast?_append, languageIn,
    List.getLastD_eq_getLast?]
  · cases ((behindFile p.infile us).filterMap xOperand).getLast? <;> rfl
  · intro hmem
    rcases List.mem_append.mp hmem with hmem | hmem
    · exact h.infile_not_sent compilerType buildTarget hmem
    · exact hfile hmem

variable {depth : Nat} {args : List Arg}

/-- Moving the input file to the end keeps its language, in the
preprocessor's command and in the remote one, exactly when the `-x` units
behind it change nothing. -/
theorem language_kept_iff (h : parse fs depth args = .ok p)
    (hd : p.canDistribute = some true) (byExtension : Str → Arg)
    (compilerType : CompilerType) (buildTarget output : Arg) :
    (languageIn byExtension (cut takesOperand
          (commandArgs compilerType buildTarget p ++ [p.infile, Opt.E]))
          p.infile =
        languageIn byExtension (expand fs depth args) p.infile ∧
      languageIn byExtension (cut takesOperand
          (requestArgs compilerType buildTarget p ++
            [Opt.o, output, p.infile])) p.infile =
        languageIn byExtension (expand fs depth args) p.infile) ↔
      Settled byExtension (expand fs depth args) p.infile := by
  have hsends := parse_sends h hd
  have hmode : isMode (.single p.modeArg) = true := by
    rcases hsends.mode with hm | hm
    · rw [hm]
      rfl
    · rw [hm]
      rfl
  have hne : p.modeArg ≠ p.infile := by
    intro he
    rw [he, isMode_iff, hsends.infile_mem.2] at hmode
    cases hmode
  have hcut : ∀ u ∈ [Piece.single p.modeArg, .pair Opt.o output],
      u.WellCut takesOperand := by
    intro u hu
    rcases List.mem_cons.mp hu with rfl | hu
    · rcases hsends.mode with hm | hm
      · rw [hm]
        rfl
      · rw [hm]
        rfl
    · rw [List.mem_singleton.mp hu]
      rfl
  have hpre := hsends.languageIn_moved byExtension compilerType buildTarget
    [] [Opt.E] (fun u hu => by cases hu) rfl (by simp)
  have hreq := hsends.languageIn_moved byExtension compilerType buildTarget
    [.single p.modeArg, .pair Opt.o output] [] hcut rfl
    (by simpa using hne.symm)
  have hassoc : requestArgs compilerType buildTarget p ++
      [Opt.o, output, p.infile] = commandArgs compilerType buildTarget p ++
        ([Piece.single p.modeArg, .pair Opt.o output].flatMap tokens ++
          [p.infile]) := List.append_assoc ..
  rw [hassoc, hreq]
  have hpre' : languageIn byExtension (cut takesOperand
      (commandArgs compilerType buildTarget p ++ [p.infile, Opt.E]))
      p.infile = _ := hpre
  rw [hpre', and_self, Settled]
  cases ((behindFile p.infile (expand fs depth args)).filterMap
      xOperand).getLast? with
  | none => simp
  | some lang => simp

/-- The name a gcc-like compiler has for the language of an extension. -/
def gccLanguage (ext : Str) : Arg :=
  if ext = ".c".toList then "c".toList
  else if ext = ".i".toList then "cpp-output".toList
  else if ext = ".ii".toList then "c++-cpp-output".toList
  else "c++".toList

/-- `foo.c -x c++ -c` is C where it stands and C++ where it is sent. -/
theorem language_changed :
    ∃ p, parse (oneFile "foo.c".toList) 1
        (table ["foo.c", "-x", "c++", "-c"]) = .ok p ∧
      p.canDistribute = some true ∧
      languageIn gccLanguage (expand (oneFile "foo.c".toList) 1
        (table ["foo.c", "-x", "c++", "-c"])) p.infile = "c".toList ∧
      languageIn gccLanguage (cut takesOperand (commandArgs .gcc
        "x86_64-linux-gnu".toList p ++ [p.infile, Opt.E])) p.infile =
          "c++".toList :=
  ⟨⟨table ["-x", "c++"], Opt.c, "foo.c".toList, "foo.o".toList, none,
    some true, .CXX⟩, by decide +kernel, rfl, by decide +kernel,
    by decide +kernel⟩

/-- `-x c++ foo.c -c` is C++ in both places. -/
theorem language_kept_before :
    languageIn gccLanguage (cut takesOperand
        (table ["-x", "c++", "foo.c", "-E"])) "foo.c".toList =
      languageIn gccLanguage (expand (oneFile "foo.c".toList) 1
        (table ["-x", "c++", "foo.c", "-c"])) "foo.c".toList := by
  have hp : parse (oneFile "foo.c".toList) 1
      (table ["-x", "c++", "foo.c", "-c"]) = .ok ⟨table ["-x", "c++"],
        Opt.c, "foo.c".toList, "foo.o".toList, none, some true, .CXX⟩ := by
    decide +kernel
  have hsettled : Settled gccLanguage (expand (oneFile "foo.c".toList) 1
      (table ["-x", "c++", "foo.c", "-c"])) "foo.c".toList := by
    have hnone : ((behindFile "foo.c".toList
        (expand (oneFile "foo.c".toList) 1 (table ["-x", "c++", "foo.c",
          "-c"]))).filterMap xOperand).getLast? = none := by decide +kernel
    intro lang hl
    rw [hnone] at hl
    cases hl
  exact ((language_kept_iff hp rfl gccLanguage .gcc
    "x86_64-linux-gnu".toList "foo.o".toList).mpr hsettled).1

end Distplusplus
