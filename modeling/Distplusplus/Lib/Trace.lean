/-
Runs that remember themselves.

`Reaches` forgets how a state was reached. For a statement about what
happened during a run — a moment within a call, the last event of a kind
before another — the run is kept: `Traces step Q s₀ past s` is a run to `s`
with `past` the states it left and the events it left them by, newest
first. The guard `Q` sees the past as well.

- `Traces.invariant`: the induction rule, for a fact about the past and the
  present together.
- `Traces.reaches`: forgetting the past.
- `traceList`, `Traces.of_traceList`: the executable replay, and with a
  check of its end `Traces.of_check`; `Traces.of_events` where the guard is
  about the events alone.
- `emitted`, `latest`: what the steps of a run put out, kept as a log, and
  the newest entry with a key. A batch, one entry for each of some keys,
  decides those keys (`latest_batch`) and no others.
-/
import Distplusplus.Lib.Machine

namespace Distplusplus.Lib

variable {σ ε : Type*}

/-- A run from `s₀` to a state, with its past. -/
inductive Traces (step : σ → ε → Option σ)
    (Q : List (σ × ε) → σ → ε → Prop) (s₀ : σ) :
    List (σ × ε) → σ → Prop
  | start : Traces step Q s₀ [] s₀
  | step {past : List (σ × ε)} {s t : σ} (e : ε) :
      Traces step Q s₀ past s → Q past s e → step s e = some t →
      Traces step Q s₀ ((s, e) :: past) t

variable {step : σ → ε → Option σ} {Q R : List (σ × ε) → σ → ε → Prop}
variable {s₀ s : σ} {past : List (σ × ε)}

/-- An inductive fact about past and present holds all along. -/
theorem Traces.invariant {P : List (σ × ε) → σ → Prop}
    (h : Traces step Q s₀ past s) (h₀ : P [] s₀)
    (hstep : ∀ past s e t, P past s → Q past s e → step s e = some t →
      P ((s, e) :: past) t) : P past s := by
  induction h with
  | start => exact h₀
  | step e _ hq hse ih => exact hstep _ _ e _ ih hq hse

/-- A weaker guard is met by more runs. -/
theorem Traces.mono (h : Traces step Q s₀ past s)
    (hQ : ∀ past s e, Q past s e → R past s e) : Traces step R s₀ past s := by
  induction h with
  | start => exact .start
  | step e _ hq hse ih => exact .step e ih (hQ _ _ _ hq) hse

/-- A run reaches its end. -/
theorem Traces.reaches (h : Traces step Q s₀ past s) :
    Reaches step (fun _ _ => True) s₀ s := by
  induction h with
  | start => exact .start
  | step e _ _ hse ih => exact .step e ih trivial hse

/-- Replay a list of events after a past; `none` at the first disabled
one. -/
def traceList (step : σ → ε → Option σ) :
    List (σ × ε) → σ → List ε → Option (List (σ × ε) × σ)
  | past, s, [] => some (past, s)
  | past, s, e :: es =>
      (step s e).bind fun t => traceList step ((s, e) :: past) t es

/-- Does every step of the replay meet the (decidable) guard? -/
def guardedTrace (step : σ → ε → Option σ)
    (q : List (σ × ε) → σ → ε → Bool) :
    List (σ × ε) → σ → List ε → Bool
  | _, _, [] => true
  | past, s, e :: es =>
      q past s e && match step s e with
        | some t => guardedTrace step q ((s, e) :: past) t es
        | none => true

/-- A replay that meets the guard is a run. -/
theorem Traces.replay {q : List (σ × ε) → σ → ε → Bool}
    (hq : ∀ past s e, q past s e = true → Q past s e)
    {past' : List (σ × ε)} {t : σ} :
    ∀ (es : List ε) {past : List (σ × ε)} {s : σ},
      Traces step Q s₀ past s →
      traceList step past s es = some (past', t) →
      guardedTrace step q past s es = true →
      Traces step Q s₀ past' t := by
  intro es
  induction es with
  | nil =>
      intro past s h hrun _
      simp only [traceList, Option.some.injEq, Prod.mk.injEq] at hrun
      obtain ⟨rfl, rfl⟩ := hrun
      exact h
  | cons e es ih =>
      intro past s h hrun hg
      simp only [traceList] at hrun
      simp only [guardedTrace, Bool.and_eq_true] at hg
      cases hse : step s e with
      | none =>
          rw [hse] at hrun
          cases hrun
      | some u =>
          rw [hse] at hrun hg
          exact ih (.step e h (hq _ _ _ hg.1) hse) hrun hg.2

/-- A replay from the start that meets the guard is a run. -/
theorem Traces.of_traceList {q : List (σ × ε) → σ → ε → Bool}
    (hq : ∀ past s e, q past s e = true → Q past s e) (es : List ε)
    (hrun : traceList step [] s₀ es = some (past, s))
    (hg : guardedTrace step q [] s₀ es = true) :
    Traces step Q s₀ past s :=
  Traces.replay hq es .start hrun hg

/-- A replay that meets the guard and ends as checked is a run that does. -/
theorem Traces.of_check (step : σ → ε → Option σ) (s₀ : σ)
    {q : List (σ × ε) → σ → ε → Bool}
    (hq : ∀ past s e, q past s e = true → Q past s e) (es : List ε)
    (check : List (σ × ε) → σ → Bool)
    (hg : guardedTrace step q [] s₀ es = true)
    (h : (traceList step [] s₀ es).any (fun r => check r.1 r.2) = true) :
    ∃ past s, Traces step Q s₀ past s ∧ check past s = true := by
  cases hrun : traceList step [] s₀ es with
  | none =>
      rw [hrun] at h
      cases h
  | some r =>
      rw [hrun] at h
      exact ⟨r.1, r.2, Traces.of_traceList hq es hrun hg, h⟩

/-- So is a replay of events that meet the guard wherever they are taken. -/
theorem Traces.of_events (step : σ → ε → Option σ) (s₀ : σ) (es : List ε)
    (hq : ∀ e ∈ es, ∀ past s, Q past s e)
    (check : List (σ × ε) → σ → Bool)
    (h : (traceList step [] s₀ es).any (fun r => check r.1 r.2) = true) :
    ∃ past s, Traces step Q s₀ past s ∧ check past s = true := by
  have hreplay : ∀ past s, Traces step Q s₀ past s →
      (traceList step past s es).any (fun r => check r.1 r.2) = true →
      ∃ past s, Traces step Q s₀ past s ∧ check past s = true := by
    clear h
    induction es with
    | nil => exact fun past s hs h => ⟨past, s, hs, h⟩
    | cons e es ih =>
        intro past s hs h
        rw [traceList] at h
        cases hse : step s e with
        | none =>
            rw [hse] at h
            cases h
        | some t =>
            rw [hse] at h
            exact ih (fun e' he' => hq e' (List.mem_cons_of_mem e he')) _ t
              (.step e hs (hq e (List.mem_cons_self ..) past s) hse) h
  exact hreplay [] s₀ .start h

-- ===================================================================== logs

section

variable {α κ : Type*} [DecidableEq κ] {key : α → κ} {f : κ → α}
variable {log : List α} {k : κ} {a : α}

/-- What a run has put out, newest first. -/
def emitted (emit : σ → ε → List α) (past : List (σ × ε)) : List α :=
  past.flatMap fun p => (emit p.1 p.2).reverse

theorem emitted_cons (emit : σ → ε → List α) (s : σ) (e : ε)
    (past : List (σ × ε)) : emitted emit ((s, e) :: past) =
      (emit s e).reverse ++ emitted emit past := rfl

/-- The newest entry with a key. -/
def latest (key : α → κ) (log : List α) (k : κ) : Option α :=
  log.find? fun a => decide (key a = k)

/-- A batch leaves the keys it is not about alone. -/
theorem latest_batch_other (hf : ∀ k, key (f k) = k) {ks : List κ}
    (hk : k ∉ ks) (log : List α) :
    latest key ((ks.map f).reverse ++ log) k = latest key log k := by
  rw [latest, List.find?_append, List.find?_eq_none.mpr]
  · rfl
  · intro a ha heq
    obtain ⟨k', hk', rfl⟩ := List.mem_map.mp (List.mem_reverse.mp ha)
    rw [hf, decide_eq_true_iff] at heq
    exact hk (heq ▸ hk')

/-- It decides the keys it is about. -/
theorem latest_batch (hf : ∀ k, key (f k) = k) {ks : List κ} (hk : k ∈ ks)
    (log : List α) :
    latest key ((ks.map f).reverse ++ log) k = some (f k) := by
  induction ks generalizing log with
  | nil => cases hk
  | cons k' ks ih =>
      rw [List.map_cons, List.reverse_cons, List.append_assoc]
      by_cases hks : k ∈ ks
      · exact ih hks _
      · obtain rfl := (List.mem_cons.mp hk).resolve_right hks
        rw [latest_batch_other hf hks, latest, List.singleton_append,
          List.find?_cons, hf, decide_eq_true rfl]

end

end Distplusplus.Lib
