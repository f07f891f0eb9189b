/-
What the destructor of a temporary file leaves behind.

`~Tempfile` removes the file and then its directory, by two `remove`s. A
file that is gone already is no error. A directory with anything else in it
is one: the second `remove` fails, the exception is thrown on, out of a
destructor, and the directory stays. The compiler decides which it is: with
`-gsplit-dwarf` or `-fstack-usage` it writes a second file beside its
output.
-/
import Distplusplus.Server.Proofs.Inside

namespace Distplusplus.Server

open Lib Common

variable {mkdtemp : Str → Except Nat Str} {nameMax : Nat}
variable {tempDir name dirname content : Str}
variable {file : Tempfile} {made : Contents} {dir left : Directory}

-- ======================================================= the specification

/-- What `remove` sees of a directory, if there still is one. -/
def entries (left : Option Contents) : Directory :=
  left.map fun contents => contents.map Prod.fst

/-- The destructor returns, and neither file nor directory is left. -/
def Cleaned (nameMax : Nat) (file : Tempfile) (left : Option Contents) :
    Prop :=
  file.destroy nameMax (entries left) = .ok none

/-- There is nothing in the directory but the file itself, or it is gone. -/
def OnlyItself (name : Str) (left : Option Contents) : Prop :=
  ∀ contents, left = some contents → ∀ e ∈ contents, e.1 = cstr name

-- =========================================================== the destructor

/-- A directory `remove` got through with is gone. -/
theorem removeDirectory_gone
    (h : removeQuietly removeDirectory dir = .ok left) : left = none := by
  cases dir with
  | none =>
      cases h
      rfl
  | some es =>
      cases es with
      | nil =>
          cases h
          rfl
      | cons e es => cases h

/-- A destructor that returns has left nothing. -/
theorem destroy_gone (hc : file.cleanup = true)
    (h : file.destroy nameMax dir = .ok left) : left = none := by
  unfold Tempfile.destroy at h
  rw [hc] at h
  simp only [Bool.not_true, Bool.false_eq_true, if_false, bind,
    Except.bind] at h
  split at h
  · cases h
  · exact removeDirectory_gone h

/-- Without a directory there is nothing to do. -/
theorem destroy_none (hc : file.cleanup = true) :
    file.destroy nameMax none = .ok none := by
  unfold Tempfile.destroy
  rw [hc]
  rfl

theorem leavesOthers_ordinary (hne : cstr name ≠ []) (contents : Contents) :
    leavesOthers name (contents.map Prod.fst) = false ↔
      ∀ e ∈ contents, e.1 = cstr name := by
  rw [leavesOthers_eq_false hne, List.filter_eq_nil_iff]
  simp

/-- An ordinary file is cleaned up exactly when it is alone. -/
theorem cleaned_iff_onlyItself (hc : file.cleanup = true)
    (hname : Ordinary file.name) (hlen : (cstr file.name).length ≤ nameMax)
    (left : Option Contents) :
    Cleaned nameMax file left ↔ OnlyItself file.name left := by
  unfold Cleaned OnlyItself
  cases left with
  | none =>
      refine iff_of_true (destroy_none hc) fun contents h => ?_
      cases h
  | some contents =>
      have hord : ordinaryName nameMax file.name = true := by
        simp [ordinaryName, hname.2.1, hname.2.2, hlen]
      have hreturns : (∃ d, file.destroy nameMax
          (some (contents.map Prod.fst)) = .ok d) ↔
          ∀ e ∈ contents, e.1 = cstr file.name := by
        rw [Tempfile.destroy_ok hc, leavesOthers_ordinary hname.1,
          and_iff_right hord]
      simp only [Option.some.injEq, forall_eq', entries, Option.map_some]
      rw [← hreturns]
      constructor
      · exact fun h => ⟨none, h⟩
      · intro hex
        obtain ⟨d, hd⟩ := hex
        rw [hd, destroy_gone hc hd]

-- ============================================================ the theorem

/-- What a new temporary file is, and what is in its directory. -/
theorem make_ok
    (h : Tempfile.make mkdtemp nameMax tempDir name dirname content
      = .ok (file, made)) :
    createFileName mkdtemp tempDir name dirname = .ok file ∧
      made = (opened nameMax name).map fun entry => (entry, content) := by
  unfold Tempfile.make at h
  split at h
  case h_1 => cases h
  case h_2 hfile =>
      cases h
      exact ⟨hfile, rfl⟩

/-- Whatever a compiler does in the directory of a temporary file with an
ordinary name, destroying it returns and leaves neither file nor directory
exactly when the compiler has left no other file. -/
theorem cleaned_iff
    (hmake : Tempfile.make mkdtemp nameMax tempDir name dirname content
      = .ok (file, made))
    (hname : Ordinary name) (hlen : (cstr name).length ≤ nameMax)
    (compiler : Contents → Option Contents) :
    Cleaned nameMax file (compiler made) ↔
      OnlyItself name (compiler made) := by
  obtain ⟨rfl, hc⟩ := createFileName_ok (make_ok hmake).1
  exact cleaned_iff_onlyItself hc hname hlen (compiler made)

/-- A compiler that fails removes its output. -/
theorem cleaned_removed :
    Cleaned 255 ⟨"/tmp/1".toList, "a.c.o".toList, true⟩ (some []) := by
  have hmake : Tempfile.make (fun _ => .ok "/tmp/1".toList) 255
      "/tmp".toList "a.c.o".toList [] [] =
      .ok (⟨"/tmp/1".toList, "a.c.o".toList, true⟩,
        [("a.c.o".toList, [])]) := rfl
  have hname : Ordinary "a.c.o".toList := by decide
  refine (cleaned_iff hmake hname (by decide) fun _ => some []).mpr ?_
  intro contents h e he
  cases h
  cases he

/-- With split debug information it leaves a second file: the exception
escapes, and the server is gone. -/
theorem side_file_escapes :
    ¬Cleaned 255 ⟨"/tmp/1".toList, "a.c.o".toList, true⟩
        (some [("a.c.o".toList, "code".toList),
          ("a.c.dwo".toList, "debug".toList)]) ∧
      distribute
        { plainHost with
          child := fun _ _ _ => .ok ⟨0, [], [], "code".toList,
            ["a.c".toList], ["a.c.o".toList, "a.c.dwo".toList]⟩ }
        { plainRequest [] with
          argument := ["-c".toList, "-gsplit-dwarf".toList] }
        = .terminate true := by
  refine ⟨fun h => ?_, rfl⟩
  cases h

end Distplusplus.Server
