/-
Response files and what they stand for.

A token `@f` at an option position does what the arguments in `f` do in its
place, from every state the parser can be in: reading a list is reading its
parts in turn, and the nested call is one of the parts.

One thing tells a file from its arguments in place. An option at the end of
the file has no operand (`LeftWaiting`), where in place it would take the
token behind. If the parser gets there, it is an error; if an earlier
argument is an error already, nothing tells them apart.
-/
import Distplusplus.Client.Reading

namespace Distplusplus.Client

open Lib Common Piece

variable {fs : FileSystem} {p : Parser} {before after : List Arg} {f : Str}

/-- `before`, as far as it goes, leaves the next token at an option
position. -/
def Complete (before : List Arg) : Prop :=
  ∀ o, Piece.dangling o ∉ cut takesOperand before

instance : Decidable (Complete before) :=
  decidable_of_iff (∀ u ∈ cut takesOperand before, ∀ o ∈ u.tokens,
    u ≠ .dangling o) (by
  constructor
  · intro h o hmem
    exact h _ hmem o (List.mem_singleton_self o) rfl
  · intro h u hu o _ heq
    exact h o (heq ▸ hu))

/-- The last of the arguments `file` is an option that waits for its
operand, and this is what the parser comes to: `ends` says what it comes
to. -/
def LeftWaiting (file : List Arg) (ends : Except Exn Parser → Prop) : Prop :=
  ∃ o, file.getLast? = some o ∧ ¬Complete file ∧
    ends (.error (.parserError (waiting o)))

-- ============================================================= one visit

theorem takesOperand_file : takesOperand ('@' :: f) = false := by
  cases h : takesOperand ('@' :: f) with
  | false => rfl
  | true => exact absurd rfl (takesOperand_facts h).2.2

/-- A response file that exists is read. -/
theorem visit_file (hspace : ' ' ∉ f)
    (hreg : fs.status (cstr f) = .regular) (p : Parser) :
    (reader fs).visit (.single ('@' :: f)) p = .ok p := by
  have hclear : ' ' ∉ '@' :: f := by
    rw [List.mem_cons, not_or]
    exact ⟨by decide, hspace⟩
  have hnd : noDistribute ('@' :: f) = false :=
    not_noDistribute_of_head (by simp)
  have hfile : isRegularFile fs f = .ok true := by
    unfold isRegularFile
    rw [hreg]
  rw [reader_visit, visit_clear (u := .single ('@' :: f)) hclear hnd]
  show visitSingle fs ('@' :: f) p = .ok p
  unfold visitSingle
  rw [if_pos (by rfl), List.tail_cons, hfile]

-- ============================================================ the inlining

/-- What the parser comes to with a response file is what it comes to with
the units of the file in its place. -/
theorem parses_file (hbefore : Complete before) (hspace : ' ' ∉ f)
    (hreg : fs.status (cstr f) = .regular) {r : Except Exn Parser} :
    Parses fs (before ++ ('@' :: f) :: after) p r ↔
      (reader fs).Ends (cut takesOperand before ++
        (fileUnits fs f ++ cut takesOperand after)) p r := by
  rw [parses_iff, cut_append_of_complete hbefore,
    cut_single takesOperand_file, Reader.ends_append, Reader.ends_append]
  have hunit : ∀ q, (reader fs).Ends
      (.single ('@' :: f) :: cut takesOperand after) q r ↔
        (reader fs).Ends (fileUnits fs f ++ cut takesOperand after) q r :=
    fun q => Reader.ends_cons (visit_file hspace hreg q)
  simp only [hunit]

/-- One step up: whatever holds of every outcome of the loop holds of the
constructor. -/
theorem constructs_congr {args args' : List Arg}
    (h : ∀ r, Parses fs args Parser.empty r ↔ Parses fs args' Parser.empty r)
    (r : Except Exn Parser) : Constructs fs args r ↔ Constructs fs args' r := by
  simp only [constructs_iff, h]

/-- Past a file that leaves an option waiting nothing is read: either the
parser comes to the option, or the tokens behind make no difference. -/
theorem ends_waiting {us vs : List (Piece Arg)} {o : Arg}
    (ho : takesOperand o = true) :
    (reader fs).Ends (us ++ .dangling o :: vs) p
        (.error (.parserError (waiting o))) ∨
      ∀ ws r, (reader fs).Ends (us ++ .dangling o :: vs) p r ↔
        (reader fs).Ends (us ++ ws) p r := by
  obtain ⟨hspace, hnd, -⟩ := takesOperand_facts ho
  by_cases hus : ∃ q, (reader fs).Ends us p (.ok q)
  · obtain ⟨q, hq⟩ := hus
    have hstop : (reader fs).visit (.dangling o) q =
        .error (.parserError (waiting o)) :=
      visit_clear (u := .dangling o) hspace hnd
    exact .inl (Reader.ends_append.mpr (.inl ⟨q, hq, .stop hstop⟩))
  · refine .inr fun ws r => ?_
    have hno : ∀ q, ¬(reader fs).Ends us p (.ok q) := not_exists.mp hus
    simp only [Reader.ends_append, hno, false_and, exists_false, false_or]

/-- A response file at an option position: an option that the file leaves
waiting is an error, or the file can be replaced by its arguments, from any
state of the parser. -/
theorem parses_inline (hbefore : Complete before) (hspace : ' ' ∉ f)
    (hreg : fs.status (cstr f) = .regular) (after : List Arg) (p : Parser) :
    LeftWaiting (fileArgs (fs.content (cstr f)))
        (Parses fs (before ++ ('@' :: f) :: after) p) ∨
      ∀ r, Parses fs (before ++ ('@' :: f) :: after) p r ↔
        Parses fs (before ++ fileArgs (fs.content (cstr f)) ++ after) p r := by
  have hunits : fileUnits fs f =
      cut takesOperand (fileArgs (fs.content (cstr f))) := rfl
  simp only [LeftWaiting, parses_file hbefore hspace hreg, hunits]
  generalize fileArgs (fs.content (cstr f)) = file
  by_cases hfile : Complete file
  · refine .inr fun r => ?_
    rw [parses_iff, List.append_assoc, cut_append_of_complete hbefore,
      cut_append_of_complete hfile]
  · simp only [Complete, not_forall, not_not] at hfile
    obtain ⟨o, ho⟩ := hfile
    obtain ⟨most, rfl, hop, hmost⟩ := exists_of_dangling ho
    have hlast : (most ++ [o]).getLast? = some o := by simp
    have hcut : cut takesOperand before ++ (cut takesOperand (most ++ [o]) ++
        cut takesOperand after) =
        (cut takesOperand before ++ cut takesOperand most) ++
          .dangling o :: cut takesOperand after := by
      rw [cut_append_of_complete hmost, cut_dangling hop]
      simp
    have hplain : cut takesOperand (before ++ (most ++ [o]) ++ after) =
        (cut takesOperand before ++ cut takesOperand most) ++
          cut takesOperand (o :: after) := by
      rw [List.append_assoc, cut_append_of_complete hbefore,
        List.append_assoc, cut_append_of_complete hmost, List.append_assoc]
      rfl
    rw [hcut]
    rcases ends_waiting hop with hstop | hsame
    · exact .inl ⟨o, hlast, fun hc => hc o ho, hstop⟩
    · refine .inr fun r => ?_
      rw [parses_iff, hplain]
      exact hsame _ r

/-- A response file whose name has no space is its arguments in place, for
the parser at any depth and for its constructor, unless it leaves an option
waiting and this is the error. The arguments are what the two loops
collect. -/
theorem response_file_inline (hbefore : Complete before) (hspace : ' ' ∉ f)
    (hreg : fs.status (cstr f) = .regular) (after : List Arg) :
    readArgsFile (fs.content (cstr f)) = fileArgs (fs.content (cstr f)) ∧
      (∀ p, LeftWaiting (fileArgs (fs.content (cstr f)))
          (Parses fs (before ++ ('@' :: f) :: after) p) ∨
        ∀ r, Parses fs (before ++ ('@' :: f) :: after) p r ↔
          Parses fs (before ++ fileArgs (fs.content (cstr f)) ++ after) p r) ∧
      (LeftWaiting (fileArgs (fs.content (cstr f)))
          (Constructs fs (before ++ ('@' :: f) :: after)) ∨
        ∀ r, Constructs fs (before ++ ('@' :: f) :: after) r ↔
          Constructs fs
            (before ++ fileArgs (fs.content (cstr f)) ++ after) r) := by
  refine ⟨readArgsFile_eq _, parses_inline hbefore hspace hreg after, ?_⟩
  rcases parses_inline hbefore hspace hreg after Parser.empty with
    ⟨o, hlast, hopen, hends⟩ | hsame
  · exact .inl ⟨o, hlast, hopen, constructs_iff.mpr (.inr ⟨_, hends, rfl⟩)⟩
  · exact .inr (constructs_congr hsame)

/-- Blanks, an empty line and no last newline, between an output and an
input that is not there. -/
theorem response_file_inline_blanks :
    Constructs (oneResponse "f".toList "-I\n\nx  -c".toList)
        (table ["-o", "x", "@f", "y"]) (.error (.parserError
          "input file not specified or does not exist".toList)) := by
  have hbefore : Complete (table ["-o", "x"]) := by decide +kernel
  have hspace : ' ' ∉ "f".toList := by decide
  have hreg : (oneResponse "f".toList "-I\n\nx  -c".toList).status
      (cstr "f".toList) = .regular := by rfl
  have hinline := response_file_inline hbefore hspace hreg (table ["y"])
  have hfile : fileArgs ((oneResponse "f".toList
      "-I\n\nx  -c".toList).content (cstr "f".toList)) =
      table ["-I", "x", "-c"] := by decide +kernel
  rw [hfile] at hinline
  have hsame := hinline.2.2.resolve_left fun hleft => by
    obtain ⟨o, -, hopen, -⟩ := hleft
    exact hopen (by decide +kernel)
  exact (hsame _).mpr ⟨1, by decide +kernel, nofun⟩

/-- A file whose name has a space is not read, though its contents alone
would parse. -/
theorem response_file_space :
    ¬(LeftWaiting (fileArgs "x".toList)
          (Constructs (oneResponse "a b".toList "x".toList)
            (table ["@a b"])) ∨
        ∀ r, Constructs (oneResponse "a b".toList "x".toList)
            (table ["@a b"]) r ↔
          Constructs (oneResponse "a b".toList "x".toList)
            (fileArgs "x".toList) r) := by
  have hspace : Constructs (oneResponse "a b".toList "x".toList)
      (table ["@a b"]) (.error .fallbackSignal) :=
    ⟨1, by decide +kernel, nofun⟩
  intro hcase
  rcases hcase with ⟨o, hlast, hopen, -⟩ | hsame
  · exact hopen (by decide +kernel)
  · have hx : Constructs (oneResponse "a b".toList "x".toList)
        (fileArgs "x".toList)
        (.ok { Parser.empty with
          args := table ["x"]
          canDistribute := some false }) :=
      ⟨1, by decide +kernel, nofun⟩
    cases hspace.det ((hsame _).mpr hx)

end Distplusplus.Client
