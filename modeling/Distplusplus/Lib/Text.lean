/-
Text read piece by piece.

`lines` is what a loop around `getline` collects: the text between
delimiters, where a delimiter at the very end has no piece after it.
`words` are the maximal runs without a separator. Reading lines and cutting
each into words is cutting the whole text at both delimiters
(`flatMap_words_lines`): the empty lines, the repeated delimiters and the
missing last delimiter, on which the two ways of reading differ, hold no
word.

A list whose pieces are each ended by the delimiter is read back as it was
written (`lines_terminated`).
-/
import Mathlib.Data.List.Basic

namespace Distplusplus.Lib

variable {α : Type*} [DecidableEq α]

/-- Reading up to a delimiter until nothing is left. -/
def lines (d : α) : List α → List (List α)
  | [] => []
  | c :: text =>
      if c = d then [] :: lines d text
      else match lines d text with
        | [] => [[c]]
        | line :: rest => (c :: line) :: rest

/-- The maximal runs without a separator. -/
def words (p : α → Bool) (text : List α) : List (List α) :=
  (text.splitOnP p).filter (· ≠ [])

example : lines '/' "a//b/".toList = ["a".toList, [], "b".toList] := by
  decide

/-- The pieces between delimiters are the lines, but for an empty one at
the end. -/
theorem splitOnP_lines (d : α) (text : List α) :
    text.splitOnP (fun c => c = d) = lines d text ∨
      text.splitOnP (fun c => c = d) = lines d text ++ [[]] := by
  induction text with
  | nil => exact .inr rfl
  | cons c text ih =>
      rw [List.splitOnP_cons_eq_if_modifyHead, lines]
      by_cases hc : c = d
      · rw [if_pos (decide_eq_true hc), if_pos hc]
        rcases ih with ih | ih
        · exact .inl (by rw [ih])
        · exact .inr (by rw [ih, List.cons_append])
      · rw [if_neg (by simpa using hc), if_neg hc]
        cases hl : lines d text with
        | nil =>
            rw [hl, List.nil_append] at ih
            have hone := ih.resolve_left (List.splitOnP_ne_nil _ _)
            exact .inl (by rw [hone]; rfl)
        | cons line rest =>
            rw [hl] at ih
            rcases ih with ih | ih
            · exact .inl (by rw [ih]; rfl)
            · exact .inr (by rw [ih]; rfl)

omit [DecidableEq α] in
/-- Cutting at either of two separators is cutting at one and then at the
other. -/
theorem splitOnP_or (p q : α → Bool) (text : List α) :
    text.splitOnP (fun c => p c || q c) =
      (text.splitOnP q).flatMap fun piece => piece.splitOnP p := by
  induction text with
  | nil => rfl
  | cons c text ih =>
      rw [List.splitOnP_cons_eq_if_modifyHead,
        List.splitOnP_cons_eq_if_modifyHead, ih]
      by_cases hq : q c = true
      · rw [if_pos (by simp [hq]), if_pos hq]
        rfl
      · rw [if_neg hq]
        cases hs : text.splitOnP q with
        | nil => exact absurd hs (List.splitOnP_ne_nil _ _)
        | cons piece rest =>
            rw [List.modifyHead_cons, List.flatMap_cons, List.flatMap_cons,
              List.splitOnP_cons_eq_if_modifyHead]
            by_cases hp : p c = true
            · rw [if_pos (by simp [hp]), if_pos hp]
              rfl
            · rw [if_neg (by simp [hp, hq]), if_neg hp]
              cases hw : piece.splitOnP p with
              | nil => exact absurd hw (List.splitOnP_ne_nil _ _)
              | cons word more => rfl

/-- The words of a text, line by line. -/
theorem flatMap_words_lines (d : α) (p : α → Bool) (text : List α) :
    (lines d text).flatMap (words p) =
      words (fun c => p c || decide (c = d)) text := by
  have hnil : words p ([] : List α) = [] := rfl
  calc (lines d text).flatMap (words p)
      = (text.splitOnP fun c => c = d).flatMap (words p) := by
        rcases splitOnP_lines d text with h | h
        · rw [h]
        · rw [h, List.flatMap_append, List.flatMap_singleton, hnil,
            List.append_nil]
    _ = words (fun c => p c || decide (c = d)) text := by
        unfold words
        rw [splitOnP_or, List.filter_flatMap]

/-- The words of a line are its non-empty pieces. -/
theorem filter_lines (d : α) (line : List α) :
    (lines d line).filter (· ≠ []) = words (fun c => c = d) line := by
  unfold words
  rcases splitOnP_lines d line with h | h
  · rw [h]
  · rw [h, List.filter_append]
    simp

/-- No line has a delimiter in it. -/
theorem not_mem_of_mem_lines {d : α} {text line : List α}
    (h : line ∈ lines d text) : d ∉ line := by
  induction text generalizing line with
  | nil => cases h
  | cons c text ih =>
      rw [lines] at h
      by_cases hc : c = d
      · rw [if_pos hc, List.mem_cons] at h
        rcases h with rfl | h
        · exact List.not_mem_nil
        · exact ih h
      · rw [if_neg hc] at h
        cases hl : lines d text with
        | nil =>
            rw [hl, List.mem_singleton] at h
            rw [h, List.mem_singleton]
            exact Ne.symm hc
        | cons first rest =>
            rw [hl, List.mem_cons] at h
            rcases h with rfl | h
            · rw [List.mem_cons, not_or]
              exact ⟨Ne.symm hc, ih (by rw [hl]; exact List.mem_cons_self ..)⟩
            · exact ih (by rw [hl]; exact List.mem_cons_of_mem _ h)

/-- Lines are made of the text. -/
theorem mem_of_mem_lines {d c : α} {text line : List α}
    (h : line ∈ lines d text) (hc : c ∈ line) : c ∈ text := by
  induction text generalizing line with
  | nil => cases h
  | cons b text ih =>
      rw [lines] at h
      by_cases hb : b = d
      · rw [if_pos hb, List.mem_cons] at h
        rcases h with rfl | h
        · cases hc
        · exact List.mem_cons_of_mem _ (ih h hc)
      · rw [if_neg hb] at h
        cases hl : lines d text with
        | nil =>
            rw [hl, List.mem_singleton] at h
            rw [h, List.mem_singleton] at hc
            exact List.mem_cons.mpr (.inl hc)
        | cons first rest =>
            rw [hl, List.mem_cons] at h
            rcases h with rfl | h
            · rcases List.mem_cons.mp hc with rfl | hc
              · exact List.mem_cons_self ..
              · exact List.mem_cons_of_mem _
                  (ih (by rw [hl]; exact List.mem_cons_self ..) hc)
            · exact List.mem_cons_of_mem _
                (ih (by rw [hl]; exact List.mem_cons_of_mem _ h) hc)

/-- A piece that is ended by the delimiter is a line. -/
theorem lines_append {d : α} {piece : List α} (h : d ∉ piece)
    (text : List α) :
    lines d (piece ++ d :: text) = piece :: lines d text := by
  induction piece with
  | nil => rw [List.nil_append, lines, if_pos rfl]
  | cons c piece ih =>
      rw [List.mem_cons, not_or] at h
      rw [List.cons_append, lines, if_neg (Ne.symm h.1), ih h.2]

/-- Pieces that are each ended by the delimiter are read back. -/
theorem lines_terminated {d : α} {pieces : List (List α)}
    (h : ∀ piece ∈ pieces, d ∉ piece) :
    lines d (pieces.flatMap fun piece => piece ++ [d]) = pieces := by
  induction pieces with
  | nil => rfl
  | cons piece pieces ih =>
      rw [List.flatMap_cons, List.append_assoc, List.singleton_append,
        lines_append (h piece (List.mem_cons_self ..)),
        ih fun p hp => h p (List.mem_cons_of_mem _ hp)]

end Distplusplus.Lib
