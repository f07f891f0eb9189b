/-
A command line cut into units.

Some options take the next token as their operand, whatever it looks like;
every other token stands alone. `cut` makes that reading explicit: a list
of pieces, the last of which may be an option left without its operand.

- Cutting loses nothing (`cut_tokens`).
- A list of well-formed pieces is its own cut (`cut_flatMap`,
  `cut_append`): after some pieces are dropped and others added, a reader
  under the same rule is still aligned.
- A token is at option position when what is in front of it does not wait
  for an operand (`mem_heads_iff`).

The rule `p` ("takes an operand") is a parameter: two programs read the
same line under two rules.
-/
import Mathlib.Data.List.Basic

namespace Distplusplus.Lib

variable {α : Type*}

/-- One unit of a command line. -/
inductive Piece (α : Type*) where
  | single (a : α)
  | pair (o x : α)
  | dangling (o : α)
  deriving DecidableEq, Repr

namespace Piece

/-- The tokens a piece was cut from. -/
def tokens : Piece α → List α
  | single a => [a]
  | pair o x => [o, x]
  | dangling o => [o]

/-- The token at option position. -/
def head : Piece α → α
  | single a => a
  | pair o _ => o
  | dangling o => o

@[simp] theorem head_single (a : α) : (single a).head = a := rfl

@[simp] theorem head_pair (o x : α) : (pair o x).head = o := rfl

@[simp] theorem tokens_single (a : α) : (single a).tokens = [a] := rfl

@[simp] theorem tokens_pair (o x : α) : (pair o x).tokens = [o, x] := rfl

/-- Is this a complete piece under the rule `p`? -/
def WellCut (p : α → Bool) : Piece α → Prop
  | single a => p a = false
  | pair o _ => p o = true
  | dangling _ => False

end Piece

open Piece

variable (p : α → Bool)

/-- Cut a command line into units. -/
def cut : List α → List (Piece α)
  | [] => []
  | [a] => if p a then [.dangling a] else [.single a]
  | a :: b :: rest =>
      if p a then .pair a b :: cut rest else .single a :: cut (b :: rest)

variable {p}

theorem cut_single {a : α} (h : p a = false) (rest : List α) :
    cut p (a :: rest) = .single a :: cut p rest := by
  cases rest with
  | nil => simp [cut, h]
  | cons b rest => simp [cut, h]

theorem cut_pair {o : α} (h : p o = true) (x : α) (rest : List α) :
    cut p (o :: x :: rest) = .pair o x :: cut p rest := by
  simp [cut, h]

theorem cut_dangling {o : α} (h : p o = true) :
    cut p [o] = [.dangling o] := by
  simp [cut, h]

/-- Induction along the pieces of a line. -/
theorem cut_induction {P : List α → Prop} (nil : P [])
    (last : ∀ o, p o = true → P [o])
    (pair : ∀ o x rest, p o = true → P rest → P (o :: x :: rest))
    (single : ∀ a rest, p a = false → P rest → P (a :: rest))
    (l : List α) : P l := by
  induction l using cut.induct (p := p) with
  | case1 => exact nil
  | case2 a h => exact last a h
  | case3 a h => exact single a [] (Bool.not_eq_true _ ▸ h) nil
  | case4 o x rest h ih => exact pair o x rest h ih
  | case5 a b rest h ih => exact single a _ (Bool.not_eq_true _ ▸ h) ih

/-- Cutting loses nothing. -/
theorem cut_tokens (l : List α) : (cut p l).flatMap tokens = l := by
  induction l using cut_induction (p := p) with
  | nil => rfl
  | last o h => simp [cut_dangling h, tokens]
  | pair o x rest h ih => simp [cut_pair h, tokens_pair, ih]
  | single a rest h ih => simp [cut_single h, tokens_single, ih]

/-- Cutting after well-formed pieces starts at an option position. -/
theorem cut_append {ps : List (Piece α)} (h : ∀ u ∈ ps, u.WellCut p)
    (rest : List α) :
    cut p (ps.flatMap tokens ++ rest) = ps ++ cut p rest := by
  induction ps with
  | nil => rfl
  | cons u ps ih =>
      have hu := h u (List.mem_cons_self ..)
      have hrest := ih fun v hv => h v (List.mem_cons_of_mem _ hv)
      cases u with
      | single a =>
          simp only [List.flatMap_cons, tokens, List.cons_append,
            List.nil_append]
          rw [cut_single hu, hrest]
      | pair o x =>
          simp only [List.flatMap_cons, tokens, List.cons_append,
            List.nil_append]
          rw [cut_pair hu, hrest]
      | dangling o => exact hu.elim

/-- Well-formed pieces are their own cut. -/
theorem cut_flatMap {ps : List (Piece α)} (h : ∀ u ∈ ps, u.WellCut p) :
    cut p (ps.flatMap tokens) = ps := by
  have := cut_append h []
  simpa [cut] using this

/-- Every piece of a cut but a dangling one is well-formed. -/
theorem wellCut_of_mem_cut {l : List α} {u : Piece α} (hu : u ∈ cut p l)
    (hd : ∀ o, u ≠ .dangling o) : u.WellCut p := by
  induction l using cut_induction (p := p) with
  | nil => cases hu
  | last o h =>
      rw [cut_dangling h, List.mem_singleton] at hu
      exact absurd hu (hd o)
  | pair o x rest h ih =>
      rw [cut_pair h] at hu
      rcases List.mem_cons.mp hu with rfl | hu
      · exact h
      · exact ih hu
  | single a rest h ih =>
      rw [cut_single h] at hu
      rcases List.mem_cons.mp hu with rfl | hu
      · exact h
      · exact ih hu

/-- A line that is not left waiting is cut apart from what follows it. -/
theorem cut_append_of_complete {l : List α}
    (h : ∀ o, Piece.dangling o ∉ cut p l) (rest : List α) :
    cut p (l ++ rest) = cut p l ++ cut p rest := by
  have hwell : ∀ u ∈ cut p l, u.WellCut p :=
    fun u hu => wellCut_of_mem_cut hu fun o ho => h o (ho ▸ hu)
  have happ := cut_append hwell rest
  rwa [cut_tokens] at happ

/-- A line that is left waiting ends in an option that takes what follows,
and is complete up to there. -/
theorem exists_of_dangling {l : List α} {o : α}
    (h : Piece.dangling o ∈ cut p l) :
    ∃ l', l = l' ++ [o] ∧ p o = true ∧ ∀ o', Piece.dangling o' ∉ cut p l' := by
  induction l using cut_induction (p := p) with
  | nil => cases h
  | last a ha =>
      rw [cut_dangling ha, List.mem_singleton] at h
      cases h
      exact ⟨[], rfl, ha, fun o' ho' => by cases ho'⟩
  | pair a x rest ha ih =>
      rw [cut_pair ha, List.mem_cons] at h
      obtain ⟨l', rfl, ho, hl'⟩ := ih (h.resolve_left nofun)
      refine ⟨a :: x :: l', rfl, ho, fun o' ho' => ?_⟩
      rw [cut_pair ha, List.mem_cons] at ho'
      exact hl' o' (ho'.resolve_left nofun)
  | single a rest ha ih =>
      rw [cut_single ha, List.mem_cons] at h
      obtain ⟨l', hl, ho, hl'⟩ := ih (h.resolve_left nofun)
      refine ⟨a :: l', by rw [hl, List.cons_append], ho, fun o' ho' => ?_⟩
      rw [cut_single ha, List.mem_cons] at ho'
      exact hl' o' (ho'.resolve_left nofun)

-- ====================================================== option positions

variable (p) in
/-- Is a line left waiting for an operand? -/
def pending (l : List α) : Bool :=
  l.foldl (fun waiting a => !waiting && p a) false

theorem pending_single {a : α} (h : p a = false) (rest : List α) :
    pending p (a :: rest) = pending p rest := by
  simp [pending, h]

theorem pending_pair {o : α} (h : p o = true) (x : α) (rest : List α) :
    pending p (o :: x :: rest) = pending p rest := by
  simp [pending, h]

/-- A line waits exactly when its cut ends in an option without operand. -/
theorem pending_iff {l : List α} :
    pending p l = true ↔ ∃ o, Piece.dangling o ∈ cut p l := by
  induction l using cut_induction (p := p) with
  | nil => simp [pending, cut]
  | last o h => simp [pending, cut_dangling h, h]
  | pair o x rest h ih => simp [pending_pair h, cut_pair h, ih]
  | single a rest h ih => simp [pending_single h, cut_single h, ih]

/-- A token is at option position when what is in front does not wait. -/
theorem mem_heads_iff {l : List α} {t : α} :
    t ∈ (cut p l).map head ↔
      ∃ before after, l = before ++ t :: after ∧ pending p before = false := by
  induction l using cut_induction (p := p) with
  | nil => simp [cut]
  | last o h =>
      rw [cut_dangling h]
      constructor
      · intro ht
        exact ⟨[], [], by rw [List.mem_singleton.mp ht]; rfl, rfl⟩
      · rintro ⟨before, after, heq, -⟩
        cases before with
        | nil => simp [(List.cons.inj heq).1, head]
        | cons b before => simp at heq
  | pair o x rest h ih =>
      rw [cut_pair h, List.map_cons, List.mem_cons, ih]
      constructor
      · rintro (rfl | ⟨before, after, rfl, hb⟩)
        · exact ⟨[], x :: rest, rfl, rfl⟩
        · exact ⟨o :: x :: before, after, rfl, by rwa [pending_pair h]⟩
      · rintro ⟨before, after, heq, hb⟩
        rcases before with _ | ⟨b, _ | ⟨b', before⟩⟩
        · exact .inl (List.cons.inj heq).1.symm
        · -- `t` would be the operand
          rw [(List.cons.inj heq).1] at h
          simp [pending, h] at hb
        · injection heq with hb₁ heq
          injection heq with hb₂ heq
          subst hb₁ hb₂
          rw [pending_pair h] at hb
          exact .inr ⟨before, after, heq, hb⟩
  | single a rest h ih =>
      rw [cut_single h, List.map_cons, List.mem_cons, ih]
      constructor
      · rintro (rfl | ⟨before, after, heq, hb⟩)
        · exact ⟨[], rest, rfl, rfl⟩
        · exact ⟨a :: before, after, by rw [heq, List.cons_append],
            by rwa [pending_single h]⟩
      · rintro ⟨before, after, heq, hb⟩
        cases before with
        | nil => exact .inl (List.cons.inj heq).1.symm
        | cons b before =>
            injection heq with hb₁ heq
            subst hb₁
            rw [pending_single h] at hb
            exact .inr ⟨before, after, heq, hb⟩

/-- A token stays where it is when more comes behind. -/
theorem mem_heads_append {l : List α} {t : α} (h : t ∈ (cut p l).map head)
    (rest : List α) : t ∈ (cut p (l ++ rest)).map head := by
  obtain ⟨before, after, rfl, hb⟩ := mem_heads_iff.mp h
  exact mem_heads_iff.mpr ⟨before, after ++ rest, by simp, hb⟩

/-- What comes behind a line that waits starts with an operand. -/
theorem cut_append_of_pending {l : List α} (h : pending p l = true) (x : α)
    (rest : List α) :
    ∃ front o, l = front ++ [o] ∧ p o = true ∧ pending p front = false ∧
      cut p (l ++ x :: rest) = cut p front ++ .pair o x :: cut p rest := by
  obtain ⟨o, ho⟩ := pending_iff.mp h
  obtain ⟨front, rfl, hp, hfront⟩ := exists_of_dangling ho
  refine ⟨front, o, rfl, hp, ?_, ?_⟩
  · rw [← Bool.not_eq_true, pending_iff, not_exists]
    exact hfront
  · rw [List.append_assoc, cut_append_of_complete hfront,
      List.singleton_append, cut_pair hp]

end Distplusplus.Lib
