/-
Guarded machines: a system is a partial step function `σ → ε → Option σ`
(`none` when the event is disabled), and a run is whatever list of events
the environment picks.

# What is here

- `Reaches step Q s₀ s`: the state `s` is reached from `s₀` by steps that
  all meet the guard `Q`. `Q` is how a theorem assumes something about the
  whole run — fresh identifiers, a bound on the callers — without fixing
  the run; `fun _ _ => True` assumes nothing.
- The two induction rules every invariant goes through: `Reaches.invariant`
  (the step is preserved) and `Reaches.invariant_with` (preserved given an
  invariant already known).
- `Reaches.project`: a run of a system is a run of each of its parts.
- `runList`, the executable replay, and `Reaches.of_runList`, which turns a
  replay that meets a decidable guard into a `Reaches`.
- `runList_related`: two runs by related events stay related.
- Two rules for a rank: `runList_rank` bounds the events that lower it in
  any replay, `Reaches.descend` leads to a state of rank zero.
- `Logged P log`, for a machine that keeps a history of itself: each entry
  satisfies `P` against the history before it.
- The thread-pool facts: a pool is a list, a step rewrites one cell, and
  `countP` moves by the old and the new cell (`countP_set_add`).

Nothing here knows the program.
-/
import Mathlib.Algebra.GroupWithZero.Nat
import Mathlib.Data.List.Basic
import Mathlib.Data.List.Forall2

namespace Distplusplus.Lib

variable {σ ε : Type*}

-- ========================================================== reachability

/-- States reached from `s₀` by steps that all meet `Q`. -/
inductive Reaches (step : σ → ε → Option σ) (Q : σ → ε → Prop) (s₀ : σ) :
    σ → Prop
  | start : Reaches step Q s₀ s₀
  | step {s t : σ} (e : ε) :
      Reaches step Q s₀ s → Q s e → step s e = some t →
      Reaches step Q s₀ t

variable {step : σ → ε → Option σ} {Q R : σ → ε → Prop} {s₀ s t : σ}

/-- An inductive invariant holds in every state reached. The step may use
the guard of the event it takes. -/
theorem Reaches.invariant {P : σ → Prop} (h : Reaches step Q s₀ s)
    (h₀ : P s₀)
    (hstep : ∀ s e t, P s → Q s e → step s e = some t → P t) : P s := by
  induction h with
  | start => exact h₀
  | step e _ hq hse ih => exact hstep _ e _ ih hq hse

/-- An invariant that is preserved only where an invariant `I`, already
known on the run, holds. -/
theorem Reaches.invariant_with {I P : σ → Prop} (h : Reaches step Q s₀ s)
    (hI : ∀ s, Reaches step Q s₀ s → I s) (h₀ : P s₀)
    (hstep : ∀ s e t, I s → P s → Q s e → step s e = some t → P t) :
    P s := by
  induction h with
  | start => exact h₀
  | step e hs hq hse ih => exact hstep _ e _ (hI _ hs) ih hq hse

/-- A weaker guard is met by more runs. -/
theorem Reaches.mono (h : Reaches step Q s₀ s)
    (hQ : ∀ s e, Q s e → R s e) : Reaches step R s₀ s := by
  induction h with
  | start => exact .start
  | step e _ hq hse ih => exact .step e ih (hQ _ _ hq) hse

/-- Runs compose. -/
theorem Reaches.trans {u : σ} (h : Reaches step Q s₀ s)
    (h' : Reaches step Q s u) : Reaches step Q s₀ u := by
  induction h' with
  | start => exact h
  | step e _ hq hse ih => exact .step e ih hq hse

/-- A run of a system, seen through one of its parts: where every step is
a step of the part or leaves it alone, the part is reached as well. -/
theorem Reaches.project {σ' ε' : Type*} {step' : σ' → ε' → Option σ'}
    {Q' : σ' → ε' → Prop} (f : σ → σ') (h : Reaches step Q s₀ s)
    (hstep : ∀ s e t, Q s e → step s e = some t → f t = f s ∨
      ∃ e', Q' (f s) e' ∧ step' (f s) e' = some (f t)) :
    Reaches step' Q' (f s₀) (f s) := by
  induction h with
  | start => exact .start
  | step e _ hq hse ih =>
      rcases hstep _ _ _ hq hse with heq | ⟨e', hq', hse'⟩
      · rw [heq]
        exact ih
      · exact .step e' ih hq' hse'

-- ======================================================= executable replay

/-- Replay a list of events; `none` at the first disabled one. -/
def runList (step : σ → ε → Option σ) : σ → List ε → Option σ
  | s, [] => some s
  | s, e :: es => (step s e).bind fun t => runList step t es

/-- One event more. -/
theorem runList_concat {es : List ε} {e : ε} {t u : σ}
    (h : runList step s es = some t) (hse : step t e = some u) :
    runList step s (es ++ [e]) = some u := by
  induction es generalizing s with
  | nil =>
      simp only [runList, Option.some.injEq] at h
      subst h
      simp [runList, hse]
  | cons e' es ih =>
      obtain ⟨v, hv, hrest⟩ := Option.bind_eq_some_iff.mp h
      rw [List.cons_append, runList, hv]
      exact ih hrest

/-- Does every step of the replay meet the (decidable) guard? -/
def guardedList (step : σ → ε → Option σ) (q : σ → ε → Bool) :
    σ → List ε → Bool
  | _, [] => true
  | s, e :: es =>
      q s e && match step s e with
        | some t => guardedList step q t es
        | none => true

/-- A replay that meets the guard reaches its end state. -/
theorem Reaches.of_runList {q : σ → ε → Bool}
    (hq : ∀ s e, q s e = true → Q s e) :
    ∀ (es : List ε) {s₀ s : σ}, runList step s₀ es = some s →
      guardedList step q s₀ es = true → Reaches step Q s₀ s := by
  intro es
  induction es with
  | nil =>
      intro s₀ s hrun _
      simp only [runList, Option.some.injEq] at hrun
      subst hrun
      exact .start
  | cons e es ih =>
      intro s₀ s hrun hg
      simp only [runList] at hrun
      simp only [guardedList, Bool.and_eq_true] at hg
      cases hse : step s₀ e with
      | none => rw [hse] at hrun; cases hrun
      | some t =>
          rw [hse] at hrun hg
          have hfirst : Reaches step Q s₀ t :=
            .step e .start (hq _ _ hg.1) hse
          exact hfirst.trans (ih hrun hg.2)

/-- Where a step from related states by related events can be taken in both,
and leaves them related, so can a replay. -/
theorem runList_related {R : σ → σ → Prop} {E : ε → ε → Prop}
    {es es' : List ε} {s s' t : σ} (h : runList step s es = some t)
    (hs : R s s') (hes : List.Forall₂ E es es')
    (hstep : ∀ s s' e e' t, R s s' → E e e' → step s e = some t →
      ∃ t', step s' e' = some t' ∧ R t t') :
    ∃ t', runList step s' es' = some t' ∧ R t t' := by
  induction hes generalizing s s' with
  | nil =>
      cases h
      exact ⟨s', rfl, hs⟩
  | cons he _ ih =>
      obtain ⟨u, hu, hrest⟩ := Option.bind_eq_some_iff.mp h
      obtain ⟨u', hu', hrel⟩ := hstep _ _ _ _ _ hs he hu
      obtain ⟨t', ht', hrel⟩ := ih hrest hrel
      exact ⟨t', by rw [runList, hu', Option.bind_some, ht'], hrel⟩

-- =================================================================== ranks

/-- Where some events lower a rank and no event raises it, a replay has no
more of those events than the rank it starts from. -/
theorem runList_rank (rank : σ → Nat) (own : ε → Bool)
    (hown : ∀ s e t, own e = true → step s e = some t → rank t < rank s)
    (hother : ∀ s e t, own e = false → step s e = some t →
      rank t ≤ rank s) :
    ∀ {es : List ε} {s t : σ}, runList step s es = some t →
      es.countP own + rank t ≤ rank s := by
  intro es
  induction es with
  | nil =>
      intro s t hrun
      simp only [runList, Option.some.injEq] at hrun
      subst hrun
      simp
  | cons e es ih =>
      intro s t hrun
      simp only [runList] at hrun
      obtain ⟨u, hse, hrest⟩ := Option.bind_eq_some_iff.mp hrun
      have hle := ih hrest
      cases ho : own e with
      | true =>
          have hlt := hown s e u ho hse
          rw [List.countP_cons_of_pos ho]
          omega
      | false =>
          have hge := hother s e u ho hse
          rw [List.countP_cons_of_neg (by rw [ho]; exact Bool.false_ne_true)]
          omega

/-- Where a state of positive rank always leads to one of smaller rank, it
leads to one of rank zero. -/
theorem Reaches.descend {I : σ → Prop} (rank : σ → Nat)
    (h : ∀ s, I s → rank s ≠ 0 →
      ∃ t, Reaches step Q s t ∧ I t ∧ rank t < rank s) (hs : I s) :
    ∃ t, Reaches step Q s t ∧ I t ∧ rank t = 0 := by
  induction hn : rank s using Nat.strongRecOn generalizing s with
  | ind n ih =>
      by_cases hzero : rank s = 0
      · exact ⟨s, .start, hs, hzero⟩
      · obtain ⟨u, hsu, hu, hlt⟩ := h s hs hzero
        obtain ⟨t, hut, ht, hrank⟩ := ih (rank u) (hn ▸ hlt) hu rfl
        exact ⟨t, hsu.trans hut, ht, hrank⟩

-- =============================================================== histories

section

variable {ν : Type*} {P : ν → List ν → Prop}

/-- Each entry of a history, newest first, satisfies `P` against what came
before it. -/
def Logged (P : ν → List ν → Prop) : List ν → Prop
  | [] => True
  | n :: log => P n log ∧ Logged P log

/-- Reading one entry off a history. -/
theorem Logged.at {n : ν} {before : List ν} :
    ∀ {after : List ν}, Logged P (after ++ n :: before) → P n before
  | [], h => h.1
  | _ :: _, h => Logged.at h.2

/-- An entry of a history has a time of its own. -/
theorem Logged.of_mem {n : ν} {log : List ν} (h : Logged P log)
    (hn : n ∈ log) :
    ∃ after before, log = after ++ n :: before ∧ P n before := by
  obtain ⟨after, before, rfl⟩ := List.append_of_mem hn
  exact ⟨after, before, rfl, h.at⟩

end

-- ============================================================ thread pools

variable {α : Type*}

/-- Rewriting one cell of a pool moves a count by that cell alone. -/
theorem countP_set_add (p : α → Bool) {l : List α} {i : Nat} {a b : α}
    (h : l[i]? = some a) :
    (l.set i b).countP p + (if p a then 1 else 0)
      = l.countP p + (if p b then 1 else 0) := by
  obtain ⟨hi, ha⟩ := List.getElem?_eq_some_iff.mp h
  have hle : (if p a then 1 else 0) ≤ l.countP p := by
    split
    · exact List.countP_pos_iff.mpr ⟨a, ha ▸ List.getElem_mem hi, ‹_›⟩
    · exact Nat.zero_le _
  rw [List.countP_set hi, ha]
  omega

/-- And it moves a sum over the pool by what the cell adds to it. -/
theorem sum_map_set_add (f : α → Nat) {l : List α} {i : Nat} {a b : α}
    (h : l[i]? = some a) :
    ((l.set i b).map f).sum + f a = (l.map f).sum + f b := by
  induction l generalizing i with
  | nil => cases h
  | cons x l ih =>
      cases i with
      | zero =>
          simp only [List.getElem?_cons_zero, Option.some.injEq] at h
          subst h
          simp only [List.set_cons_zero, List.map_cons, List.sum_cons]
          omega
      | succ i =>
          have hrest := ih (by simpa using h)
          simp only [List.set_cons_succ, List.map_cons, List.sum_cons]
          omega

/-- A cell that counts is counted. -/
theorem countP_pos_of_getElem? (p : α → Bool) {l : List α} {i : Nat} {a : α}
    (h : l[i]? = some a) (hp : p a = true) : 1 ≤ l.countP p :=
  List.countP_pos_iff.mpr ⟨a, List.mem_of_getElem? h, hp⟩

/-- Reading a pool after one cell was rewritten. -/
theorem getElem?_set_cases {l : List α} {i j : Nat} {a b c : α}
    (h : l[i]? = some a) (hj : (l.set i b)[j]? = some c) :
    (j = i ∧ c = b) ∨ (j ≠ i ∧ l[j]? = some c) := by
  by_cases hji : j = i
  · subst hji
    obtain ⟨hi, -⟩ := List.getElem?_eq_some_iff.mp h
    rw [List.getElem?_set_self hi, Option.some.injEq] at hj
    exact .inl ⟨rfl, hj.symm⟩
  · rw [List.getElem?_set_ne (Ne.symm hji)] at hj
    exact .inr ⟨hji, hj⟩

/-- Reading a pool after one thread was added. -/
theorem getElem?_append_one_cases {l : List α} {j : Nat} {b c : α}
    (hj : (l ++ [b])[j]? = some c) :
    (j = l.length ∧ c = b) ∨ l[j]? = some c := by
  rcases Nat.lt_or_ge j l.length with hlt | hge
  · rw [List.getElem?_append_left hlt] at hj
    exact .inr hj
  · rw [List.getElem?_append_right hge] at hj
    cases hd : j - l.length with
    | zero =>
        rw [hd] at hj
        simp only [List.getElem?_cons_zero, Option.some.injEq] at hj
        exact .inl ⟨by omega, hj.symm⟩
    | succ n => rw [hd] at hj; simp at hj

end Distplusplus.Lib
