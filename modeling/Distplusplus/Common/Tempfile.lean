/-
Temporary files (`common/tempfile.cpp`).

A `Tempfile` lives in a directory of its own, fresh from `mkdtemp`. Its
directory is modelled by the names in it (`none` once it is gone); that is
all the destructor's two `remove` calls can see.

# What the kernel sees

Path functions work on the whole string, system calls on the part before
the first NUL (`cstr`). `removeEntry` is `remove(2)` on `dir/name` for a
name without a slash: an empty name is the directory itself, `.` and `..`
are directories `rmdir` refuses, a name over `nameMax` bytes is refused
before anything else is looked at.
-/
import Distplusplus.Common.Compression

namespace Distplusplus.Common

open Lib

-- ============================================================ system calls

/-- What a system call reads of a string. -/
def cstr (s : Str) : Str := s.takeWhile (· ≠ '\x00')

theorem nul_not_mem_cstr (s : Str) : '\x00' ∉ cstr s := by
  intro h
  have hne := List.mem_takeWhile_imp h
  simp at hne

theorem cstr_of_not_mem {s : Str} (h : '\x00' ∉ s) : cstr s = s := by
  unfold cstr
  rw [List.takeWhile_eq_self_iff]
  intro c hc
  simp only [decide_eq_true_eq]
  rintro rfl
  exact h hc

/-- Behind a text without a NUL. -/
theorem cstr_append_left {s : Str} (h : '\x00' ∉ s) (t : Str) :
    cstr (s ++ t) = s ++ cstr t := by
  unfold cstr
  rw [List.takeWhile_append_of_pos]
  intro c hc
  simp only [decide_eq_true_eq]
  rintro rfl
  exact h hc

/-- Behind one with a NUL nothing is read. -/
theorem cstr_append_right {s : Str} (h : '\x00' ∈ s) (t : Str) :
    cstr (s ++ t) = cstr s := by
  obtain ⟨front, back, rfl, hfront⟩ := List.eq_append_cons_of_mem h
  have hcut : ∀ rest, cstr (front ++ '\x00' :: rest) = front := by
    intro rest
    rw [cstr_append_left hfront]
    exact List.append_nil front
  rw [List.append_assoc, List.cons_append, hcut, hcut]

theorem slash_not_mem_cstr {s : Str} (h : '/' ∉ s) : '/' ∉ cstr s :=
  fun hc => h ((List.takeWhile_sublist _).mem hc)

namespace Errno

def ENOENT : Nat := 2

def EINVAL : Nat := 22

def ENAMETOOLONG : Nat := 36

def ENOTEMPTY : Nat := 39

end Errno

/-- The names in a directory, or `none` when it does not exist. -/
abbrev Directory := Option (List Str)

/-- `remove` on the directory itself. -/
def removeDirectory : Directory → Except Nat Directory
  | none => .error Errno.ENOENT
  | some [] => .ok none
  | some (_ :: _) => .error Errno.ENOTEMPTY

/-- `remove` on `dir/name`, for a name without a slash. -/
def removeEntry (nameMax : Nat) (dir : Directory) (name : Str) :
    Except Nat Directory :=
  match dir with
  | none => .error Errno.ENOENT
  | some entries =>
      if cstr name = [] then removeDirectory (some entries)
      else if cstr name = ['.'] then .error Errno.EINVAL
      else if cstr name = ['.', '.'] then .error Errno.ENOTEMPTY
      else if (cstr name).length > nameMax then .error Errno.ENAMETOOLONG
      else if cstr name ∈ entries then
        .ok (some (entries.filter (· ≠ cstr name)))
      else .error Errno.ENOENT

/-- The names an `ofstream` on `dir/name` leaves in a fresh directory: the
stream does not throw when it cannot be opened. -/
def opened (nameMax : Nat) (name : Str) : List Str :=
  if cstr name = [] ∨ cstr name = ['.'] ∨ cstr name = ['.', '.'] ∨
      (cstr name).length > nameMax then []
  else [cstr name]

-- ================================================================ Tempfile

/-- A temporary file: the directory made for it and its name in it. -/
structure Tempfile where
  dir : Str
  name : Str
  cleanup : Bool
  deriving DecidableEq, Repr

/-- The path itself. -/
def Tempfile.path (t : Tempfile) : Str := t.dir ++ '/' :: t.name

/-- `Tempfile::createFileName`, with `mkdtemp` as a parameter: the
directory it makes for a template, or its `errno`. -/
def createFileName (mkdtemp : Str → Except Nat Str) (tempDir : Str)
    (name dirname : Str) : Except Exception Tempfile :=
  if filename name = [] then .error (.invalidArgument
    ("path ".toList ++ name ++ " has no filename".toList))
  else if !samePath (filename name) name then .error (.invalidArgument
    ("path ".toList ++ name ++ " is not a basename".toList))
  else if !samePath (filename dirname) dirname then .error (.invalidArgument
    ("dirname ".toList ++ dirname ++ " is not a directory name".toList))
  else match mkdtemp (cstr (tempDir ++ '/' :: dirname ++ "XXXXXX".toList)) with
    | .error errno => .error (.runtimeError
        ("error creating temporary directory - errno is ".toList ++
          toDecimal errno))
    | .ok dir => .ok ⟨dir, name, true⟩

/-- What is in a temporary directory: files and their contents. -/
abbrev Contents := List (Str × Str)

/-- `Tempfile::Tempfile`: the file, and what its directory holds then.
`createFileName` leaves an empty file; what is written to it, if there is
anything to write, is the content. -/
def Tempfile.make (mkdtemp : Str → Except Nat Str) (nameMax : Nat)
    (tempDir name dirname content : Str) :
    Except Exception (Tempfile × Contents) :=
  match createFileName mkdtemp tempDir name dirname with
  | .error e => .error e
  | .ok file =>
      .ok (file, (opened nameMax name).map fun entry => (entry, content))

/-- One `try` of the destructor: `remove`, where a missing file is no
error and any other failure is rethrown. -/
def removeQuietly (remove : Directory → Except Nat Directory)
    (dir : Directory) : Except Exception Directory :=
  match remove dir with
  | .ok dir' => .ok dir'
  | .error errno =>
      if errno = Errno.ENOENT then .ok dir
      else .error (.filesystemError errno)

/-- `Tempfile::~Tempfile`. An exception that leaves it is
`std::terminate`: destructors are `noexcept`. -/
def Tempfile.destroy (nameMax : Nat) (t : Tempfile) (dir : Directory) :
    Except Exception Directory :=
  if !t.cleanup then .ok dir
  else do
    let dir ← removeQuietly (removeEntry nameMax · t.name) dir
    removeQuietly removeDirectory dir

/-- A name that is one ordinary directory entry the file system takes. -/
def ordinaryName (nameMax : Nat) (name : Str) : Bool :=
  decide (cstr name ≠ ['.']) && decide (cstr name ≠ ['.', '.']) &&
  decide ((cstr name).length ≤ nameMax)

/-- Are there names in the directory besides the file's own? A name that
is empty to the kernel owns none. -/
def leavesOthers (name : Str) (entries : List Str) : Bool :=
  entries.any fun e => decide (cstr name = [] ∨ e ≠ cstr name)

theorem leavesOthers_eq_false {name : Str} {entries : List Str}
    (hne : cstr name ≠ []) :
    leavesOthers name entries = false ↔
      entries.filter (· ≠ cstr name) = [] := by
  simp [leavesOthers, hne]

/-- Removing the directory returns exactly when it is gone or empty. -/
theorem removeQuietly_removeDirectory (d : Directory) :
    (∃ d', removeQuietly removeDirectory d = .ok d') ↔
      d = none ∨ d = some [] := by
  cases d with
  | none => simp [removeQuietly, removeDirectory]
  | some entries =>
      cases entries with
      | nil => simp [removeQuietly, removeDirectory]
      | cons e es =>
          simp [removeQuietly, removeDirectory, Errno.ENOTEMPTY, Errno.ENOENT]

/-- Removing an ordinary entry never fails: a missing file is no error. -/
theorem removeQuietly_removeEntry {nameMax : Nat} {name : Str}
    {entries : List Str} (hne : cstr name ≠ [])
    (h : ordinaryName nameMax name = true) :
    removeQuietly (removeEntry nameMax · name) (some entries)
      = .ok (some (entries.filter (· ≠ cstr name))) := by
  simp only [ordinaryName, Bool.and_eq_true, decide_eq_true_eq] at h
  obtain ⟨⟨hdot, hdots⟩, hlen⟩ := h
  simp only [removeQuietly, removeEntry]
  rw [if_neg hne, if_neg hdot, if_neg hdots, if_neg (Nat.not_lt.mpr hlen)]
  by_cases hmem : cstr name ∈ entries
  · rw [if_pos hmem]
  · have hall : entries.filter (· ≠ cstr name) = entries := by
      rw [List.filter_eq_self]
      intro e he
      simp only [decide_eq_true_eq]
      intro heq
      subst heq
      exact hmem he
    rw [if_neg hmem, hall]
    rfl

/-- Exactly when the destructor returns: the name is an ordinary entry, and
nothing but the file is left in its directory. -/
theorem Tempfile.destroy_ok {nameMax : Nat} {t : Tempfile}
    {entries : List Str} (hc : t.cleanup = true) :
    (∃ d, t.destroy nameMax (some entries) = .ok d) ↔
      ordinaryName nameMax t.name = true ∧
        leavesOthers t.name entries = false := by
  unfold Tempfile.destroy
  rw [hc]
  simp only [Bool.not_true, Bool.false_eq_true, if_false]
  by_cases hempty : cstr t.name = []
  · -- the kernel reads the directory's own path
    have hord : ordinaryName nameMax t.name = true := by
      simp [ordinaryName, hempty]
    cases entries with
    | nil =>
        simp [removeQuietly, removeEntry, removeDirectory, leavesOthers,
          hord, hempty, bind, Except.bind]
    | cons e es =>
        simp [removeQuietly, removeEntry, removeDirectory, leavesOthers,
          hempty, bind, Except.bind, Errno.ENOTEMPTY, Errno.ENOENT]
  · by_cases hord : ordinaryName nameMax t.name = true
    · rw [removeQuietly_removeEntry hempty hord]
      simp only [bind, Except.bind]
      rw [removeQuietly_removeDirectory, leavesOthers_eq_false hempty]
      simp [hord]
    · -- `.`, `..` or too long: the first `remove` fails
      have hbad : cstr t.name = ['.'] ∨ cstr t.name = ['.', '.'] ∨
          (cstr t.name).length > nameMax := by
        simp only [ordinaryName, Bool.and_eq_true, decide_eq_true_eq] at hord
        by_cases h1 : cstr t.name = ['.']
        · exact .inl h1
        · by_cases h2 : cstr t.name = ['.', '.']
          · exact .inr (.inl h2)
          · exact .inr (.inr (Nat.lt_of_not_le fun h3 =>
              hord ⟨⟨h1, h2⟩, h3⟩))
      have herr : ∃ e, removeQuietly (removeEntry nameMax · t.name)
          (some entries) = .error e := by
        simp only [removeQuietly, removeEntry]
        rw [if_neg hempty]
        by_cases h1 : cstr t.name = ['.']
        · rw [if_pos h1]
          exact ⟨_, rfl⟩
        · rw [if_neg h1]
          by_cases h2 : cstr t.name = ['.', '.']
          · rw [if_pos h2]
            exact ⟨_, rfl⟩
          · rw [if_neg h2, if_pos ((hbad.resolve_left h1).resolve_left h2)]
            exact ⟨_, rfl⟩
      obtain ⟨e, he⟩ := herr
      rw [he]
      simp [bind, Except.bind, hord]

end Distplusplus.Common
