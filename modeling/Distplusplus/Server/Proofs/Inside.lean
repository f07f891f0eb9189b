/-
Where the temporary files are.

`sanitizeFile` asks whether the name equals its own last component. It does
when there is no slash in it, which goes for `.` and `..` as well; and the
kernel reads a name up to its first NUL, so these two, and the empty name,
can be spelled in many ways. Such a name does not denote an entry of the
fresh directory, but the directory itself or the one above it.

The name of the output is out of danger: with `.o` behind it a name is
ordinary, unless a NUL hides the `.o`.
-/
import Distplusplus.Server.Proofs.Survival

namespace Distplusplus.Server

open Lib Common

variable {mkdtemp mkdtempInput mkdtempOutput : Str → Except Nat Str}
variable {tempDir name dirname dir dirInput dirOutput peer : Str}
variable {file : File}

-- ======================================================= the specification

/-- The file passes the checks of `createFileName`, and its path denotes an
entry of the directory that was made for it. -/
def Contained (mkdtemp : Str → Except Nat Str)
    (tempDir name dirname : Str) : Prop :=
  ∃ file, createFileName mkdtemp tempDir name dirname = .ok file ∧
    ∃ e, lexicallyNormal (cstr file.path) = lexicallyNormal file.dir ++ [e]

/-- What `mkdtemp` is asked for. -/
def template (tempDir dirname : Str) : Str :=
  cstr (tempDir ++ '/' :: dirname ++ "XXXXXX".toList)

-- ================================================================= the name

/-- A name that is an entry of its own to the kernel. -/
def Ordinary (name : Str) : Prop :=
  cstr name ≠ [] ∧ cstr name ≠ ['.'] ∧ cstr name ≠ ['.', '.']

instance : DecidablePred Ordinary := fun _ =>
  inferInstanceAs (Decidable (_ ∧ _))

/-- With `.o` behind it a name is ordinary if it was. -/
theorem ordinary_append_o (h : Ordinary name) :
    Ordinary (name ++ ".o".toList) := by
  unfold Ordinary at h ⊢
  by_cases hnul : '\x00' ∈ name
  · rw [cstr_append_right hnul]
    exact h
  · have hlong : ∀ s : Str, s.getLast? ≠ some 'o' →
        name ++ ".o".toList ≠ s := by
      rintro s hs rfl
      simp at hs
    rw [cstr_append_left hnul, cstr_of_not_mem (s := ".o".toList) (by decide)]
    exact ⟨hlong _ (by decide), hlong _ (by decide), hlong _ (by decide)⟩

-- ================================================================= the path

/-- A file is contained exactly when its name is ordinary. -/
theorem contained_iff (hname : '/' ∉ name) (hdirname : '/' ∉ dirname)
    (hmk : mkdtemp (template tempDir dirname) = .ok dir)
    (hdir : '\x00' ∉ dir) :
    Contained mkdtemp tempDir name dirname ↔ Ordinary name := by
  unfold Contained Ordinary
  have hbase := (samePath_filename name).mpr hname
  rw [filename_of_no_slash hname] at hbase
  unfold template at hmk
  simp only [createFileName, (samePath_filename dirname).mpr hdirname,
    filename_of_no_slash hname, hbase, Bool.not_true, Bool.false_eq_true,
    if_false, hmk]
  by_cases hnil : name = []
  · rw [if_pos hnil, hnil]
    refine iff_of_false (fun hex => ?_) fun h => h.1 rfl
    obtain ⟨file, hfile, -⟩ := hex
    cases hfile
  · rw [if_neg hnil]
    have hpath : lexicallyNormal (cstr (⟨dir, name, true⟩ : Tempfile).path) =
        enter (lexicallyNormal dir) (cstr name) := by
      have hslash : cstr ('/' :: name) = '/' :: cstr name := rfl
      unfold Tempfile.path
      rw [cstr_append_left hdir, hslash,
        lexicallyNormal_append dir (slash_not_mem_cstr hname)]
    have hinside : (∃ e, enter (lexicallyNormal dir) (cstr name) =
        lexicallyNormal dir ++ [e]) ↔ _ := enter_inside_iff
    rw [← hinside, ← hpath]
    constructor
    · intro hex
      obtain ⟨file, hfile, e, he⟩ := hex
      cases hfile
      exact ⟨e, he⟩
    · intro hex
      exact ⟨_, rfl, hex⟩

-- ============================================================ the theorem

/-- Both files of a job whose name is accepted are contained exactly when
the name is ordinary. -/
theorem files_contained_iff (hname : sanitizeFile file = true)
    (peer tempDir : Str)
    (hin : mkdtempInput (template tempDir (delimited peer)) = .ok dirInput)
    (hout : mkdtempOutput (template tempDir (delimited peer)) = .ok dirOutput)
    (hdirs : '\x00' ∉ dirInput ∧ '\x00' ∉ dirOutput) :
    Contained mkdtempInput tempDir file.name (delimited peer) ∧
        Contained mkdtempOutput tempDir (file.name ++ ".o".toList)
          (delimited peer) ↔
      cstr file.name ∉ table ["", ".", ".."] := by
  have hslash := sanitizeFile_iff.mp hname
  have hpeer := slash_not_mem_delimited peer
  rw [contained_iff hslash hpeer hin hdirs.1,
    contained_iff (slash_not_mem_append_o hslash) hpeer hout hdirs.2]
  have hord : Ordinary file.name ↔ cstr file.name ∉ table ["", ".", ".."] := by
    simp [Ordinary, table]
  rw [← hord]
  exact ⟨fun h => h.1, fun h => ⟨h, ordinary_append_o h⟩⟩

/-- A directory for every template. -/
def makes (suffix : Str) : Str → Except Nat Str :=
  fun template => .ok (template ++ suffix)

/-- What it makes for one peer. -/
theorem makes_ipv4 (suffix : Str) :
    makes suffix (template "/tmp".toList (delimited "ipv4".toList)) =
      .ok ("/tmp/ipv4XXXXXX".toList ++ suffix) := by
  have htemplate : template "/tmp".toList (delimited "ipv4".toList) =
      "/tmp/ipv4XXXXXX".toList := by decide +kernel
  rw [htemplate]
  rfl

theorem files_contained_plain :
    Contained (makes "1".toList) "/tmp".toList "a.c".toList
        (delimited "ipv4".toList) ∧
      Contained (makes "2".toList) "/tmp".toList "a.c.o".toList
        (delimited "ipv4".toList) := by
  have hname : sanitizeFile ⟨"a.c".toList, CompressionType.NONE, []⟩ =
      true := by decide +kernel
  exact (files_contained_iff hname "ipv4".toList "/tmp".toList
    (makes_ipv4 "1".toList) (makes_ipv4 "2".toList) (by decide +kernel)).mpr
    (by decide +kernel)

/-- The name `..` is accepted. The path it makes is the temporary directory
itself, and `.` is the fresh one. -/
theorem parent_accepted :
    sanitizeFile ⟨"..".toList, CompressionType.NONE, []⟩ = true ∧
      ¬Contained (makes "1".toList) "/tmp".toList "..".toList
        (delimited "ipv4".toList) ∧
      ¬Contained (makes "1".toList) "/tmp".toList ".".toList
        (delimited "ipv4".toList) ∧
      lexicallyNormal "/tmp/ipv4XXXXXX1/..".toList = table ["tmp"] := by
  have hno : ∀ name : Str, '/' ∉ name → ¬Ordinary name →
      ¬Contained (makes "1".toList) "/tmp".toList name
        (delimited "ipv4".toList) := fun name hslash hord hcon =>
    hord ((contained_iff hslash (slash_not_mem_delimited _)
      (makes_ipv4 "1".toList) (by decide +kernel)).mp hcon)
  exact ⟨by decide +kernel, hno _ (by decide) (by decide),
    hno _ (by decide) (by decide), by decide +kernel⟩

end Distplusplus.Server
