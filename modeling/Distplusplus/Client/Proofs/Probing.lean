/-
What the local compiler gets to read.

The two calls of `stdin_empty` take up to two bytes from the descriptor and
give them back in the wrong order; a single byte is not given to the
compiler at all, since the second call sees the end of the descriptor and
not the byte on the stream. So the input arrives as it was only if there is
none, or if its first two bytes are the same (`Preserved`): then nobody can
tell that they were exchanged.

`length_fallbackInput` is the other half: whatever is lost once does not
come back.
-/
import Distplusplus.Client.Proofs.Masquerade
import Distplusplus.Client.Stdin

namespace Distplusplus.Client

open Lib Common

variable {P : Platform} {found first second : Found} {s : Stdin}
variable {c : Char} {text : Str}

-- ============================================================= one call

/-- Nobody has read the input, and all of it is there. -/
def unread (text : Str) : Stdin := ⟨text, true, none, []⟩

/-- `errno` is left from a call that would have had to wait. -/
def Found.Stale (found : Found) : Prop := found.errno = EAGAIN

instance : Decidable found.Stale := inferInstanceAs (Decidable (_ = _))

theorem stale_iff :
    found.errno = EAGAIN ∨ found.errno = EWOULDBLOCK ↔ found.Stale :=
  or_self_iff

/-- At the end nothing is taken. -/
theorem stdinEmpty_nil (pushed : Str) :
    stdinEmpty P found ⟨[], true, none, pushed⟩ =
      (true, ⟨[], true, none, pushed⟩) := rfl

/-- Before it a byte is taken, and given back, -/
theorem stdinEmpty_cons (h : ¬found.Stale) (c : Char) (text pushed : Str) :
    stdinEmpty P found ⟨c :: text, true, none, pushed⟩ =
      (false, Stdin.ungetc P c ⟨text, true, none, pushed⟩) :=
  if_neg (mt stale_iff.mp h)

/-- or lost. -/
theorem stdinEmpty_stale (h : found.Stale) (c : Char) (text pushed : Str) :
    stdinEmpty P found ⟨c :: text, true, none, pushed⟩ =
      (true, ⟨text, true, none, pushed⟩) :=
  if_pos (stale_iff.mpr h)

theorem ungetc_eof (h : P.isEOF c = true) (s : Stdin) :
    Stdin.ungetc P c s = s := if_pos h

theorem ungetc_room (pushed : Str) (h : P.isEOF c = false)
    (hroom : pushed.length < P.pushback) :
    Stdin.ungetc P c ⟨text, true, none, pushed⟩ =
      ⟨text, true, none, c :: pushed⟩ := by
  unfold Stdin.ungetc
  rw [if_neg (ne_true_of_eq_false h), if_pos hroom]

theorem ungetc_full (pushed : Str) (hfull : ¬pushed.length < P.pushback) :
    Stdin.ungetc P c ⟨text, true, none, pushed⟩ =
      ⟨text, true, none, pushed⟩ := by
  unfold Stdin.ungetc
  rw [if_neg hfull, ite_self]

theorem length_ungetc (P : Platform) (c : Char) (s : Stdin) :
    (Stdin.ungetc P c s).rest.length ≤ s.rest.length + 1 := by
  unfold Stdin.ungetc
  split_ifs
  · exact Nat.le_succ _
  · simp [Stdin.rest]
  · exact Nat.le_succ _

-- ========================================================= the handler

/-- The handler reads no more than there is. -/
theorem length_fallbackInput (P : Platform) (found : Found)
    (text pushed : Str) :
    (fallbackInput P found ⟨text, true, none, pushed⟩).length ≤
      pushed.length + text.length := by
  cases text with
  | nil =>
      rw [fallbackInput, stdinEmpty_nil]
      exact Nat.zero_le _
  | cons c text =>
      by_cases h : found.Stale
      · rw [fallbackInput, stdinEmpty_stale h]
        exact Nat.zero_le _
      · rw [fallbackInput, stdinEmpty_cons h]
        have hle := length_ungetc P c ⟨text, true, none, pushed⟩
        simp only [Stdin.rest, List.length_append, List.length_cons] at hle ⊢
        omega

/-- What the handler reads after a first byte that was given back. -/
theorem fallbackInput_pushed (P : Platform) (found : Found) (c : Char)
    (text : Str) :
    fallbackInput P found ⟨text, true, none, [c]⟩ = c :: text ↔
      1 < P.pushback ∧ ¬found.Stale ∧
        ∃ rest, text = c :: rest ∧ P.isEOF c = false := by
  cases text with
  | nil =>
      rw [fallbackInput, stdinEmpty_nil]
      simp
  | cons b rest =>
      by_cases hstale : found.Stale
      · rw [fallbackInput, stdinEmpty_stale hstale]
        simp [hstale]
      · rw [fallbackInput, stdinEmpty_cons hstale]
        dsimp only
        by_cases heof : P.isEOF b = true
        · rw [ungetc_eof heof]
          -- one byte short
          refine iff_of_false (fun h => ?_) fun h => ?_
          · have hlen := congrArg List.length h
            simp [Stdin.rest] at hlen
          · obtain ⟨-, -, rest', hrest, hc⟩ := h
            cases hrest
            rw [heof] at hc
            cases hc
        · have heof : P.isEOF b = false := Bool.eq_false_iff.mpr heof
          by_cases hroom : 1 < P.pushback
          · rw [ungetc_room [c] heof hroom]
            simp only [Stdin.rest, List.cons_append, List.nil_append,
              List.cons.injEq]
            constructor
            · intro h
              obtain ⟨rfl, -, -⟩ := h
              exact ⟨hroom, hstale, rest, ⟨rfl, rfl⟩, heof⟩
            · intro h
              obtain ⟨-, -, rest', ⟨rfl, -⟩, -⟩ := h
              exact ⟨rfl, rfl, trivial⟩
          · rw [ungetc_full [c] hroom]
            refine iff_of_false (fun h => ?_) fun h => hroom h.1
            have hlen := congrArg List.length h
            simp [Stdin.rest] at hlen

/-- What is passed to the program is what the handler has read. -/
theorem mainEnd_starts {m : Local} {fallback : Bool} {cin cin' : Str}
    {argv args : List Arg} {func : Except Thrown Remote} {program : Str}
    (h : mainEnd m fallback cin argv func =
      .fallback (.starts program args cin')) : cin' = cin := by
  unfold mainEnd at h
  split at h
  · cases h
  · rw [Ending.fallback.injEq] at h
    unfold runFallback at h
    split at h
    · cases h
    · split_ifs at h
      split at h
      · cases h
      · dsimp only at h
        split at h
        · cases h
        · cases h
        · cases h
          rfl
  · cases h

-- ============================================================ the theorem

/-- The input survives the two calls: there is none, or it starts with one
byte twice, and nothing is in the way of taking both bytes back. -/
def Preserved (P : Platform) (first second : Found) (text : Str) : Prop :=
  text = [] ∨
    ¬first.Stale ∧ ¬second.Stale ∧ 1 < P.pushback ∧
      ∃ c rest, text = c :: c :: rest ∧ P.isEOF c = false

/-- A local compiler that is started gets the client's standard input
exactly when that input survives. -/
theorem fallback_cin_iff {m : Local} {fallback : Bool}
    {func : Except Thrown Remote} {argv args : List Arg} {program cin : Str}
    (h : main P m fallback first second func argv (unread text) =
      .fallback (.starts program args cin)) :
    cin = text ↔ Preserved P first second text := by
  unfold main unread at h
  unfold Preserved
  cases text with
  | nil =>
      rw [stdinEmpty_nil] at h
      rw [mainEnd_starts h, fallbackInput, stdinEmpty_nil]
      simp
  | cons c text =>
      -- a byte that is not given back is missing at the end
      have hlost : cin = fallbackInput P second ⟨text, true, none, []⟩ →
          cin ≠ c :: text := by
        intro hcin heq
        have hle := length_fallbackInput P second text []
        rw [← hcin, heq] at hle
        simp only [List.length_cons, List.length_nil] at hle
        omega
      have hne : c :: text ≠ [] := List.cons_ne_nil _ _
      by_cases hstale : first.Stale
      · rw [stdinEmpty_stale hstale] at h
        exact iff_of_false (hlost (mainEnd_starts h)) fun hp =>
          hp.elim hne fun hp => hp.1 hstale
      · rw [stdinEmpty_cons hstale] at h
        have hcin := mainEnd_starts h
        by_cases heof : P.isEOF c = true
        · rw [ungetc_eof heof] at hcin
          refine iff_of_false (hlost hcin) fun hp => ?_
          obtain ⟨-, -, -, c', rest, heq, hc⟩ := hp.resolve_left hne
          cases heq
          rw [heof] at hc
          cases hc
        · rw [ungetc_room [] (Bool.eq_false_iff.mpr heof) P.oneByte] at hcin
          rw [hcin, fallbackInput_pushed]
          simp only [hne, false_or, hstale, not_false_eq_true, true_and,
            List.cons.injEq]
          constructor
          · intro hp
            obtain ⟨hroom, hsecond, rest, hrest, hc⟩ := hp
            exact ⟨hsecond, hroom, c, rest, ⟨rfl, hrest⟩, hc⟩
          · intro hp
            obtain ⟨hsecond, hroom, c', rest, ⟨rfl, hrest⟩, hc⟩ := hp
            exact ⟨hroom, hsecond, rest, hrest, hc⟩

/-- glibc on x86. -/
def glibc : Platform := ⟨true, 64, by decide⟩

/-- The same byte twice, and more. -/
theorem fallback_cin_aab :
    main glibc unmasked true ⟨0, 'x'⟩ ⟨0, 'x'⟩ (.error .fallbackSignal)
        (table ["gcc", "-"]) (unread "aab".toList) =
      .fallback (.starts "/usr/bin/gcc".toList (table ["-"])
        "aab".toList) ∧
      Preserved glibc ⟨0, 'x'⟩ ⟨0, 'x'⟩ "aab".toList := by
  have hmain : main glibc unmasked true ⟨0, 'x'⟩ ⟨0, 'x'⟩
      (.error .fallbackSignal) (table ["gcc", "-"]) (unread "aab".toList) =
      .fallback (.starts "/usr/bin/gcc".toList (table ["-"])
        "aab".toList) := by decide +kernel
  exact ⟨hmain, (fallback_cin_iff hmain).mp rfl⟩

/-- One byte is gone, two are exchanged. -/
theorem fallback_cin_lost :
    main glibc unmasked true ⟨0, 'x'⟩ ⟨0, 'x'⟩ (.error .fallbackSignal)
        (table ["gcc", "-"]) (unread "a".toList) =
      .fallback (.starts "/usr/bin/gcc".toList (table ["-"]) []) ∧
    main glibc unmasked true ⟨0, 'x'⟩ ⟨0, 'x'⟩ (.error .fallbackSignal)
        (table ["gcc", "-"]) (unread "ab".toList) =
      .fallback (.starts "/usr/bin/gcc".toList (table ["-"])
        "ba".toList) := by
  decide +kernel

end Distplusplus.Client
