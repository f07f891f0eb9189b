/-
Strings and lexical paths.

A C++ string is a list of characters, one character a byte. The path
functions are the lexical half of `std::filesystem::path` on POSIX: they
read the text and never the disk.

# Path equality

`operator==` on paths compares decompositions, not texts (`a//b == a/b`),
so `samePath` compares `pathParts`: the root directory and the names, with
an empty last name for a trailing slash. The one fact the programs rest on
is `samePath_filename`: a path equals its own file name exactly when its
text has no slash.
-/
import Mathlib.Data.List.TakeWhile

namespace Distplusplus.Lib

/-- A byte string. -/
abbrev Str := List Char

/-- Membership in a list of strings is decided by this. -/
instance instLawfulBEqStr : @LawfulBEq Str List.instBEq := inferInstance

-- ============================================================== segments

/-- The text between slashes, empty pieces included. -/
def segments : Str → List Str
  | [] => [[]]
  | c :: cs =>
      if c = '/' then [] :: segments cs
      else match segments cs with
        | s :: ss => (c :: s) :: ss
        | [] => [[c]]

/-- `path::filename`: the text after the last slash. -/
def filename (p : Str) : Str := (p.reverse.takeWhile (· ≠ '/')).reverse

/-- The root directory, and the names a path iterates over. A trailing
slash adds an empty last name, unless the path is all slashes. -/
def pathParts (p : Str) : Bool × List Str :=
  let names := (segments p).filter (· ≠ [])
  (p.head? = some '/',
    if names ≠ [] ∧ (segments p).getLast? = some [] then names ++ [[]]
    else names)

/-- `operator==` on paths. -/
def samePath (a b : Str) : Bool := pathParts a = pathParts b

theorem segments_ne_nil (p : Str) : segments p ≠ [] := by
  cases p with
  | nil => simp [segments]
  | cons c cs =>
      simp only [segments]
      split
      · exact List.cons_ne_nil _ _
      · split <;> exact List.cons_ne_nil _ _

/-- A text without a slash is one segment. -/
theorem segments_of_no_slash {p : Str} (h : '/' ∉ p) : segments p = [p] := by
  induction p with
  | nil => rfl
  | cons c cs ih =>
      rw [List.mem_cons, not_or] at h
      simp only [segments]
      rw [if_neg (Ne.symm h.1), ih h.2]

/-- A text that starts with a name and has a slash further on cuts into a
non-empty first segment and at least one more. -/
theorem segments_of_slash {c : Char} {cs : Str} (hc : c ≠ '/')
    (h : '/' ∈ cs) :
    ∃ s ss, segments (c :: cs) = (c :: s) :: ss ∧ ss ≠ [] := by
  induction cs generalizing c with
  | nil => cases h
  | cons d ds ih =>
      by_cases hd : d = '/'
      · subst hd
        refine ⟨[], segments ds, ?_, segments_ne_nil ds⟩
        simp [segments, hc]
      · have hds : '/' ∈ ds := (List.mem_cons.mp h).resolve_left (Ne.symm hd)
        obtain ⟨s, ss, hs, hne⟩ := ih hd hds
        refine ⟨d :: s, ss, ?_, hne⟩
        rw [segments, if_neg hc, hs]

-- ============================================================== filename

theorem slash_not_mem_filename (p : Str) : '/' ∉ filename p := by
  unfold filename
  rw [List.mem_reverse]
  intro h
  have := List.mem_takeWhile_imp h
  simp at this

/-- A text without a slash is its own file name. -/
theorem filename_of_no_slash {p : Str} (h : '/' ∉ p) : filename p = p := by
  unfold filename
  rw [List.takeWhile_eq_self_iff.mpr, List.reverse_reverse]
  intro c hc
  simp only [decide_eq_true_eq]
  rintro rfl
  exact h (List.mem_reverse.mp hc)

/-- The decomposition of a text without a slash. -/
theorem pathParts_of_no_slash {p : Str} (h : '/' ∉ p) :
    pathParts p = (false, [p].filter (· ≠ [])) := by
  have hhead : p.head? ≠ some '/' := fun hh =>
    h (List.mem_of_mem_head? (by rw [hh]; exact rfl))
  unfold pathParts
  rw [segments_of_no_slash h]
  by_cases hp : p = []
  · subst hp
    rfl
  · simp [hhead, hp]

/-- A path equal to a text without a slash has none either. -/
theorem no_slash_of_samePath {q p : Str} (hq : '/' ∉ q)
    (h : samePath q p = true) : '/' ∉ p := by
  intro hmem
  have hparts : pathParts q = pathParts p := by
    simpa [samePath] using h
  rw [pathParts_of_no_slash hq] at hparts
  cases p with
  | nil => cases hmem
  | cons c cs =>
      by_cases hc : c = '/'
      · subst hc
        have := congrArg Prod.fst hparts
        simp [pathParts] at this
      · have hcs : '/' ∈ cs :=
          (List.mem_cons.mp hmem).resolve_left (Ne.symm hc)
        obtain ⟨s, ss, hs, hne⟩ := segments_of_slash hc hcs
        -- at least two names on the right, at most one on the left
        have hlen : 2 ≤ (pathParts (c :: cs)).2.length := by
          unfold pathParts
          rw [hs]
          simp only
          by_cases hall : ss.filter (· ≠ []) = []
          · have hlast : ss.getLast? = some [] := by
              rw [List.getLast?_eq_some_getLast hne,
                Option.some.injEq]
              have := List.filter_eq_nil_iff.mp hall _
                (List.getLast_mem hne)
              simpa using this
            rw [if_pos ⟨by simp, by
              rw [List.getLast?_cons, hlast]; rfl⟩]
            simp
          · have hpos := List.length_pos_iff.mpr hall
            have hfull : 2 ≤ (((c :: s) :: ss).filter (· ≠ [])).length := by
              rw [List.filter_cons_of_pos (by simp), List.length_cons]
              omega
            split
            · rw [List.length_append]
              omega
            · exact hfull
        have hle : ([q].filter (· ≠ [])).length ≤ 1 :=
          List.length_filter_le _ _
        rw [← hparts] at hlen
        simp only at hlen
        omega

/-- Between texts without slashes path equality is equality. -/
theorem eq_of_samePath {q p : Str} (hq : '/' ∉ q)
    (h : samePath q p = true) : q = p := by
  have hp := no_slash_of_samePath hq h
  have hparts : pathParts q = pathParts p := by
    simpa [samePath] using h
  rw [pathParts_of_no_slash hq, pathParts_of_no_slash hp,
    Prod.mk.injEq] at hparts
  have hnames := hparts.2
  by_cases hqn : q = []
  · by_cases hpn : p = []
    · rw [hqn, hpn]
    · simp [hqn, hpn] at hnames
  · by_cases hpn : p = []
    · simp [hqn, hpn] at hnames
    · simpa [hqn, hpn] using hnames

/-- A path equals its own file name exactly when its text has no slash. -/
theorem samePath_filename (p : Str) :
    samePath (filename p) p = true ↔ '/' ∉ p := by
  constructor
  · exact no_slash_of_samePath (slash_not_mem_filename p)
  · intro h
    rw [filename_of_no_slash h]
    simp [samePath]

-- ====================================================== stem and extension

/-- A file name cut at its last dot: `path::stem` and `path::extension`.
`.`, `..` and a name whose only dot comes first have no extension. -/
def cutExtension (f : Str) : Str × Str :=
  let ext := f.reverse.takeWhile (· ≠ '.')
  let stem := f.take (f.length - ext.length - 1)
  if f = ['.', '.'] ∨ ext.length = f.length ∨ stem = [] then (f, [])
  else (stem, '.' :: ext.reverse)

def stem (p : Str) : Str := (cutExtension (filename p)).1

def extension (p : Str) : Str := (cutExtension (filename p)).2

example : extension "src/a.b.c++".toList = ".c++".toList := by decide
example : extension "src/.c".toList = [] := by decide

theorem slash_not_mem_stem (p : Str) : '/' ∉ stem p := by
  intro h
  apply slash_not_mem_filename p
  unfold stem cutExtension at h
  dsimp only at h
  split_ifs at h
  · exact h
  · exact List.mem_of_mem_take h

/-- A stem is the front of a file name. -/
theorem stem_starts_filename (p : Str) : stem p <+: filename p := by
  unfold stem cutExtension
  dsimp only
  split_ifs
  · exact List.prefix_refl _
  · exact List.take_prefix _ _

-- ============================================================= directories

/-- `operator/` on paths, for a relative right-hand side. -/
def join (dir name : Str) : Str :=
  if name = [] then dir
  else if dir = [] ∨ dir.getLast? = some '/' then dir ++ name
  else dir ++ '/' :: name

/-- The text before the last slash. -/
def parentPath (p : Str) : Str :=
  (p.take (p.length - (filename p).length)).dropLast

theorem filename_append {name : Str} (h : '/' ∉ name) (dir : Str) :
    filename (dir ++ '/' :: name) = name := by
  unfold filename
  rw [List.reverse_append, List.reverse_cons, List.append_assoc,
    List.takeWhile_append_of_pos, List.singleton_append, List.takeWhile_cons]
  · simp
  · intro c hc
    simp only [decide_eq_true_eq]
    rintro rfl
    exact h (List.mem_reverse.mp hc)

/-- What is found in a directory has the name it was looked for. -/
theorem filename_join {name : Str} (h : '/' ∉ name) (hne : name ≠ [])
    (dir : Str) : filename (join dir name) = name := by
  unfold join
  rw [if_neg hne]
  by_cases hdir : dir = []
  · rw [if_pos (.inl hdir), hdir, List.nil_append, filename_of_no_slash h]
  · by_cases hlast : dir.getLast? = some '/'
    · obtain ⟨front, rfl⟩ := List.getLast?_eq_some_iff.mp hlast
      rw [if_pos (.inr hlast), List.append_assoc, List.singleton_append,
        filename_append h]
    · rw [if_neg (not_or.mpr ⟨hdir, hlast⟩), filename_append h]

example : join "/usr/bin".toList "gcc".toList = "/usr/bin/gcc".toList := rfl
example : parentPath "/usr/bin/gcc".toList = "/usr/bin".toList := by decide

-- ============================================================== resolution

/-- One name of a path: `.` stays where it is and `..` goes up, as far as
the root. -/
def enter (names : List Str) (name : Str) : List Str :=
  if name = [] ∨ name = ['.'] then names
  else if name = ['.', '.'] then names.dropLast
  else names ++ [name]

/-- The entry an absolute path denotes, as the names on the way from the
root to it, where no name on the way is a link. -/
def lexicallyNormal (p : Str) : List Str := (segments p).foldl enter []

example : lexicallyNormal "/a/./b/../c".toList =
    ["a".toList, "c".toList] := by decide

theorem segments_append (p q : Str) :
    segments (p ++ '/' :: q) = segments p ++ segments q := by
  induction p with
  | nil => simp [segments]
  | cons c p ih =>
      rw [List.cons_append, segments, segments, ih]
      by_cases hc : c = '/'
      · rw [if_pos hc, if_pos hc, List.cons_append]
      · rw [if_neg hc, if_neg hc]
        cases hs : segments p with
        | nil => exact absurd hs (segments_ne_nil p)
        | cons s ss => rfl

/-- A name in a directory. -/
theorem lexicallyNormal_append (dir : Str) {name : Str} (h : '/' ∉ name) :
    lexicallyNormal (dir ++ '/' :: name) =
      enter (lexicallyNormal dir) name := by
  unfold lexicallyNormal
  rw [segments_append, segments_of_no_slash h, List.foldl_append]
  rfl

/-- A name denotes an entry of the directory it is entered from, unless it
is empty or one of the two dots. -/
theorem enter_inside_iff {names : List Str} {name : Str} :
    (∃ e, enter names name = names ++ [e]) ↔
      name ≠ [] ∧ name ≠ ['.'] ∧ name ≠ ['.', '.'] := by
  unfold enter
  by_cases hstay : name = [] ∨ name = ['.']
  · rw [if_pos hstay]
    refine iff_of_false (fun hex => ?_) fun h =>
      hstay.elim h.1 h.2.1
    obtain ⟨e, he⟩ := hex
    have hlen := congrArg List.length he
    simp at hlen
  · rw [if_neg hstay]
    rw [not_or] at hstay
    by_cases hup : name = ['.', '.']
    · rw [if_pos hup]
      refine iff_of_false (fun hex => ?_) fun h => h.2.2 hup
      obtain ⟨e, he⟩ := hex
      have hlen := congrArg List.length he
      rw [List.length_dropLast, List.length_append,
        List.length_singleton] at hlen
      omega
    · rw [if_neg hup]
      exact iff_of_true ⟨name, rfl⟩ ⟨hstay.1, hstay.2, hup⟩

end Distplusplus.Lib
