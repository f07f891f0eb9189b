/-
Readers that read lists in place.

A reader goes through a list of items with a state. `visit` is what one
item does to the state, or the error it raises; `opens` says which items
stand for a list of their own, to be read where they stand. `nested` is a
reader the way a program has it: one call for each list, on a stack of
bounded depth.

# The reader as a machine

`Step` works on one list: an item that opens is replaced by what it stands
for. `Steps` is any number of steps, `Ends` a run to its end. Depth is gone
from them, and with it the difference between a list and the same list in
place (`Ends.append`, `ends_steps`): `nested_iff` says that a reader with
enough stack ends as the machine does.

# Termination

A run that does not end opens lists inside lists without end. When only
finitely many lists can be opened, and what an item does is decided by
finitely many aspects of the state (`aspect`), it comes back to one of them
with the same aspects (`Loops`); and a run that does so goes on for ever.
`ends_iff` is both directions.
-/
import Mathlib.Data.Set.Card
import Mathlib.Logic.Relation

namespace Distplusplus.Lib

variable {ι σ ε κ : Type*}

/-- What a reader does with one item. -/
structure Reader (ι σ ε : Type*) where
  visit : ι → σ → Except ε σ
  opens : ι → Option (List ι)

namespace Reader

-- ================================================================ programs

/-- The loop over one list; `read` reads the lists it opens. -/
def loop (R : Reader ι σ ε) (read : List ι → σ → Except ε σ) :
    List ι → σ → Except ε σ
  | [], p => .ok p
  | u :: us, p =>
      match R.visit u p with
      | .error e => .error e
      | .ok q =>
          match R.opens u with
          | none => R.loop read us q
          | some vs =>
              match read vs q with
              | .error e => .error e
              | .ok r => R.loop read us r

/-- The reader on a stack of some depth; `deep` is running out of it. -/
def nested (R : Reader ι σ ε) (deep : ε) : Nat → List ι → σ → Except ε σ
  | 0, _, _ => .error deep
  | depth + 1, us, p => R.loop (R.nested deep depth) us p

variable {R : Reader ι σ ε} {deep e : ε} {u : ι} {us vs ws : List ι}
variable {p q : σ} {r r' : Except ε σ} {depth : Nat}

/-- Reading a list is reading its parts in turn. -/
theorem loop_append (read : List ι → σ → Except ε σ) (us vs : List ι)
    (p : σ) : R.loop read (us ++ vs) p =
      match R.loop read us p with
      | .error e => .error e
      | .ok q => R.loop read vs q := by
  induction us generalizing p with
  | nil => rfl
  | cons u us ih =>
      simp only [List.cons_append, loop]
      cases R.visit u p with
      | error e => rfl
      | ok q =>
          cases R.opens u with
          | none => exact ih q
          | some ws =>
              dsimp only
              cases read ws q with
              | error e => rfl
              | ok r => exact ih r

/-- The rule for loops that return: what holds at the end of the list, and
of a list because it holds behind its first item. -/
theorem loop_returns {read : List ι → σ → Except ε σ}
    {P : List ι → σ → Prop} (nil : P [] q)
    (item : ∀ {u us p p'}, R.visit u p = .ok p' → R.opens u = none →
      P us p' → P (u :: us) p)
    (list : ∀ {u us vs p p' p''}, R.visit u p = .ok p' →
      R.opens u = some vs → read vs p' = .ok p'' → P us p'' →
      P (u :: us) p)
    (h : R.loop read us p = .ok q) : P us p := by
  induction us generalizing p with
  | nil =>
      cases h
      exact nil
  | cons u us ih =>
      simp only [loop] at h
      cases hv : R.visit u p with
      | error e =>
          rw [hv] at h
          cases h
      | ok p' =>
          rw [hv] at h
          cases ho : R.opens u with
          | none =>
              rw [ho] at h
              exact item hv ho (ih h)
          | some vs =>
              rw [ho] at h
              dsimp only at h
              cases hr : read vs p' with
              | error e =>
                  rw [hr] at h
                  cases h
              | ok p'' =>
                  rw [hr] at h
                  exact list hv ho hr (ih h)

/-- A loop that does not run out ends the same with a better reader. -/
theorem loop_mono {read read' : List ι → σ → Except ε σ}
    (hread : ∀ us p, read us p ≠ .error deep → read' us p = read us p)
    (h : R.loop read us p ≠ .error deep) :
    R.loop read' us p = R.loop read us p := by
  induction us generalizing p with
  | nil => rfl
  | cons u us ih =>
      simp only [loop] at h ⊢
      cases hv : R.visit u p with
      | error e => rfl
      | ok q =>
          rw [hv] at h
          cases ho : R.opens u with
          | none =>
              rw [ho] at h
              exact ih h
          | some vs =>
              rw [ho] at h
              dsimp only at h ⊢
              have hne : read vs q ≠ .error deep := by
                intro he
                rw [he] at h
                exact h rfl
              rw [hread vs q hne]
              cases hr : read vs q with
              | error e => rfl
              | ok r =>
                  rw [hr] at h
                  exact ih h

/-- More stack makes no difference to a reader that has enough. -/
theorem nested_mono (h : R.nested deep depth us p ≠ .error deep)
    (more : Nat) :
    R.nested deep (depth + more) us p = R.nested deep depth us p := by
  induction depth generalizing us p with
  | zero => exact absurd rfl h
  | succ depth ih =>
      rw [Nat.succ_add]
      exact loop_mono (fun us p hne => ih hne) h

-- ================================================================= machine

/-- One item: what it stands for takes its place. -/
inductive Step (R : Reader ι σ ε) : List ι × σ → List ι × σ → Prop
  | visit {u : ι} {us : List ι} {p q : σ} (h : R.visit u p = .ok q) :
      Step R (u :: us, p) ((R.opens u).getD [] ++ us, q)

/-- Any number of items. -/
abbrev Steps (R : Reader ι σ ε) : List ι × σ → List ι × σ → Prop :=
  Relation.ReflTransGen R.Step

/-- A run to its end: the list is through, or an item raises an error. -/
inductive Ends (R : Reader ι σ ε) : List ι → σ → Except ε σ → Prop
  | done (p : σ) : Ends R [] p (.ok p)
  | stop {u : ι} {us : List ι} {p : σ} {e : ε}
      (h : R.visit u p = .error e) : Ends R (u :: us) p (.error e)
  | step {u : ι} {us : List ι} {p q : σ} {r : Except ε σ}
      (h : R.visit u p = .ok q)
      (rest : Ends R ((R.opens u).getD [] ++ us) q r) : Ends R (u :: us) p r

/-- The machine is deterministic. -/
theorem Step.det {s t t' : List ι × σ} (h : R.Step s t)
    (h' : R.Step s t') : t = t' := by
  cases h with
  | visit hv =>
      cases h' with
      | visit hv' =>
          rw [hv] at hv'
          cases hv'
          rfl

theorem Ends.det (h : R.Ends us p r) (h' : R.Ends us p r') : r = r' := by
  induction h with
  | done p =>
      cases h'
      rfl
  | stop hv =>
      cases h' with
      | stop hv' =>
          rw [hv] at hv'
          cases hv'
          rfl
      | step hv' =>
          rw [hv] at hv'
          cases hv'
  | step hv _ ih =>
      cases h' with
      | stop hv' =>
          rw [hv] at hv'
          cases hv'
      | step hv' hrest =>
          rw [hv] at hv'
          cases hv'
          exact ih hrest

/-- An item that is accepted leaves the run to what comes after. -/
theorem ends_cons (h : R.visit u p = .ok q) :
    R.Ends (u :: us) p r ↔ R.Ends ((R.opens u).getD [] ++ us) q r := by
  refine ⟨fun hr => ?_, .step h⟩
  cases hr with
  | stop hv =>
      rw [h] at hv
      cases hv
  | step hv hrest =>
      rw [h] at hv
      cases hv
      exact hrest

/-- So do any number of items. -/
theorem ends_steps (h : R.Steps (us, p) (vs, q)) :
    R.Ends us p r ↔ R.Ends vs q r := by
  generalize hs : (us, p) = s at h
  generalize ht : (vs, q) = t at h
  induction h using Relation.ReflTransGen.head_induction_on
    generalizing us p with
  | refl =>
      rw [← hs] at ht
      cases ht
      rfl
  | head hstep _ ih =>
      cases hstep with
      | visit hv =>
          cases hs
          rw [ends_cons hv]
          exact ih rfl

/-- Reading a list is reading its parts in turn. -/
theorem ends_append : R.Ends (us ++ vs) p r ↔
    (∃ q, R.Ends us p (.ok q) ∧ R.Ends vs q r) ∨
      ∃ e, R.Ends us p (.error e) ∧ r = .error e := by
  constructor
  · intro h
    generalize hws : us ++ vs = ws at h
    induction h generalizing us with
    | done p =>
        obtain ⟨rfl, rfl⟩ := List.append_eq_nil_iff.mp hws
        exact .inl ⟨p, .done p, .done p⟩
    | @stop u rest p e hv =>
        cases us with
        | nil =>
            rw [List.nil_append] at hws
            rw [hws]
            exact .inl ⟨p, .done p, .stop hv⟩
        | cons u' us =>
            cases hws
            exact .inr ⟨e, .stop hv, rfl⟩
    | @step u rest p q r hv hrest ih =>
        cases us with
        | nil =>
            rw [List.nil_append] at hws
            rw [hws]
            exact .inl ⟨p, .done p, .step hv hrest⟩
        | cons u' us =>
            cases hws
            rcases ih (List.append_assoc ..) with ⟨q', h₁, h₂⟩ | ⟨e, h₁, he⟩
            · exact .inl ⟨q', .step hv h₁, h₂⟩
            · exact .inr ⟨e, .step hv h₁, he⟩
  · intro hcase
    have hjoin : ∀ {us p r'}, R.Ends us p r' → (∀ q, r' = .ok q →
        R.Ends vs q r) → (∀ e, r' = .error e → r = .error e) →
        R.Ends (us ++ vs) p r := by
      intro us p r' h hok herr
      induction h with
      | done p => exact hok p rfl
      | stop hv =>
          rw [herr _ rfl]
          exact .stop hv
      | step hv _ ih =>
          rw [List.append_assoc] at ih
          exact .step hv (ih hok herr)
    rcases hcase with ⟨q, h₁, h₂⟩ | ⟨e, h₁, rfl⟩
    · exact hjoin h₁ (fun q' he => by cases he; exact h₂)
        fun e he => by cases he
    · exact hjoin h₁ (fun q' he => by cases he) fun e' he => he

/-- A list that is through was stepped through. -/
theorem Ends.steps (h : R.Ends us p (.ok q)) (vs : List ι) :
    R.Steps (us ++ vs, p) (vs, q) := by
  generalize hr : Except.ok q = r at h
  induction h with
  | done p =>
      cases hr
      exact .refl
  | stop => cases hr
  | step hv _ ih =>
      rw [List.append_assoc] at ih
      exact .head (.visit hv) (ih hr)

/-- An error is raised by an item the run comes to. -/
theorem ends_error : R.Ends us p (.error e) ↔
    ∃ u vs q, R.Steps (us, p) (u :: vs, q) ∧ R.visit u q = .error e := by
  constructor
  · intro h
    generalize hr : Except.error e = r at h
    induction h with
    | done p => cases hr
    | @stop u us p e' hv =>
        cases hr
        exact ⟨u, us, p, .refl, hv⟩
    | step hv _ ih =>
        obtain ⟨u, vs, q, hsteps, hu⟩ := ih hr
        exact ⟨u, vs, q, .head (.visit hv) hsteps, hu⟩
  · intro hex
    obtain ⟨u, vs, q, hsteps, hu⟩ := hex
    exact (ends_steps hsteps).mpr (.stop hu)

-- ========================================================= enough stack

variable (hdeep : ∀ u p, R.visit u p ≠ .error deep)

include hdeep in
/-- A run does not end by running out of stack. -/
theorem Ends.ne_deep (h : R.Ends us p r) : r ≠ .error deep := by
  intro hr
  rw [hr] at h
  obtain ⟨u, vs, q, -, hu⟩ := ends_error.mp h
  exact hdeep u q hu

/-- What a loop does is what the machine does, if its reader is. -/
theorem ends_of_loop {read : List ι → σ → Except ε σ}
    (hread : ∀ us p, read us p ≠ .error deep → R.Ends us p (read us p))
    (h : R.loop read us p ≠ .error deep) :
    R.Ends us p (R.loop read us p) := by
  induction us generalizing p with
  | nil => exact .done p
  | cons u us ih =>
      simp only [loop] at h ⊢
      cases hv : R.visit u p with
      | error e => exact .stop hv
      | ok q =>
          rw [hv] at h
          refine .step hv ?_
          cases ho : R.opens u with
          | none =>
              rw [ho] at h
              exact ih h
          | some vs =>
              rw [ho] at h
              dsimp only [Option.getD_some] at h ⊢
              rw [ends_append]
              cases hr : read vs q with
              | error e =>
                  rw [hr] at h
                  have hends := hread vs q (by rw [hr]; exact h)
                  rw [hr] at hends
                  exact .inr ⟨e, hends, rfl⟩
              | ok q' =>
                  rw [hr] at h
                  have hends := hread vs q (by rw [hr]; exact nofun)
                  rw [hr] at hends
                  exact .inl ⟨q', hends, ih h⟩

/-- A reader with enough stack ends as the machine does. -/
theorem ends_of_nested (h : R.nested deep depth us p ≠ .error deep) :
    R.Ends us p (R.nested deep depth us p) := by
  induction depth generalizing us p with
  | zero => exact absurd rfl h
  | succ depth ih => exact ends_of_loop (fun us p hne => ih hne) h

/-- One more item needs at most one more level. -/
theorem nested_step (h : R.visit u p = .ok q)
    (hr : R.nested deep depth ((R.opens u).getD [] ++ us) q = r)
    (hne : r ≠ .error deep) :
    R.nested deep (depth + 1) (u :: us) p = r := by
  have hmore : ∀ {us q}, R.nested deep depth us q = r →
      R.nested deep (depth + 1) us q = r := by
    intro us q hr
    rw [nested_mono (by rw [hr]; exact hne), hr]
  cases depth with
  | zero => exact absurd hr.symm hne
  | succ depth =>
      rw [nested, loop_append] at hr
      rw [nested]
      simp only [loop, h]
      cases ho : R.opens u with
      | none =>
          rw [ho] at hr
          exact hmore hr
      | some vs =>
          rw [ho] at hr
          dsimp only [Option.getD_some] at hr ⊢
          rw [← nested] at hr
          cases hv : R.nested deep (depth + 1) vs q with
          | error e =>
              rw [hv] at hr
              exact hr
          | ok q' =>
              rw [hv] at hr
              exact hmore hr

include hdeep in
/-- A run that ends, ends so on a stack that is deep enough. -/
theorem nested_of_ends (h : R.Ends us p r) :
    ∃ depth, R.nested deep depth us p = r := by
  induction h with
  | done p => exact ⟨1, rfl⟩
  | stop hv => exact ⟨1, by simp only [nested, loop, hv]⟩
  | step hv hrest ih =>
      obtain ⟨depth, hr⟩ := ih
      exact ⟨depth + 1, nested_step hv hr (hrest.ne_deep hdeep)⟩

include hdeep in
/-- The machine is the reader with enough stack. -/
theorem nested_iff :
    (∃ depth, R.nested deep depth us p = r ∧ r ≠ .error deep) ↔
      R.Ends us p r := by
  constructor
  · intro hex
    obtain ⟨depth, rfl, hne⟩ := hex
    exact ends_of_nested hne
  · intro h
    obtain ⟨depth, hr⟩ := nested_of_ends hdeep h
    exact ⟨depth, hr, h.ne_deep hdeep⟩

-- ============================================================== termination

/-- Items do the same in states with the same aspect. -/
def Respects (R : Reader ι σ ε) (aspect : σ → κ) : Prop :=
  ∀ u p p' q, aspect p' = aspect p → R.visit u p = .ok q →
    ∃ q', R.visit u p' = .ok q' ∧ aspect q' = aspect q

/-- The run comes to an item that opens a list, and reads it from `q`. -/
def Opening (R : Reader ι σ ε) (us : List ι) (p : σ) (vs : List ι) (q : σ) :
    Prop :=
  ∃ u rest p', R.Steps (us, p) (u :: rest, p') ∧ R.visit u p' = .ok q ∧
    R.opens u = some vs

/-- The run opens a list that opens itself again, in a state with the same
aspect. -/
def Loops (R : Reader ι σ ε) (aspect : σ → κ) (us : List ι) (p : σ) : Prop :=
  ∃ vs q q', R.Opening us p vs q ∧ R.Opening vs q vs q' ∧
    aspect q' = aspect q

variable {aspect : σ → κ}

/-- The same steps from another state, with more behind. -/
theorem Respects.steps (hasp : R.Respects aspect) {p' : σ}
    (h : R.Steps (us, p) (vs, q)) (hp : aspect p' = aspect p)
    (ws : List ι) :
    ∃ q', R.Steps (us ++ ws, p') (vs ++ ws, q') ∧ aspect q' = aspect q := by
  generalize hs : (us, p) = s at h
  generalize ht : (vs, q) = t at h
  induction h using Relation.ReflTransGen.head_induction_on
    generalizing us p p' with
  | refl =>
      rw [← hs] at ht
      cases ht
      exact ⟨p', .refl, hp⟩
  | head hstep _ ih =>
      cases hstep with
      | visit hv =>
          cases hs
          obtain ⟨q₁, hv', hq₁⟩ := hasp _ _ _ _ hp hv
          obtain ⟨q', hsteps, hq'⟩ := ih hq₁ rfl
          rw [List.append_assoc] at hsteps
          exact ⟨q', .head (.visit hv') hsteps, hq'⟩

/-- Steps leave alone what is behind. -/
theorem Steps.append (h : R.Steps (us, p) (vs, q)) (ws : List ι) :
    R.Steps (us ++ ws, p) (vs ++ ws, q) := by
  have hid : R.Respects id := by
    intro u p p' q hp hv
    rw [id, id] at hp
    exact ⟨q, hp ▸ hv, rfl⟩
  obtain ⟨q', hsteps, rfl⟩ := hid.steps h rfl ws
  exact hsteps

/-- A run that ends has finitely many steps ahead. -/
theorem Ends.acc (h : R.Ends us p r) :
    Acc (fun t s => R.Step s t) (us, p) := by
  induction h with
  | done p => exact .intro _ fun t ht => by cases ht
  | stop hv =>
      refine .intro _ fun t ht => ?_
      cases ht with
      | visit hv' =>
          rw [hv] at hv'
          cases hv'
  | step hv _ ih =>
      refine .intro _ fun t ht => ?_
      rw [ht.det (.visit hv)]
      exact ih

/-- The opened list takes the item's place. -/
theorem Opening.steps (h : R.Opening us p vs q) (ws : List ι) :
    ∃ rest, Relation.TransGen R.Step (us ++ ws, p) (vs ++ rest, q) := by
  obtain ⟨u, rest, p', hsteps, hv, ho⟩ := h
  have hlast : R.Step (u :: (rest ++ ws), p')
      ((R.opens u).getD [] ++ (rest ++ ws), q) := .visit hv
  rw [ho, Option.getD_some] at hlast
  exact ⟨rest ++ ws, .tail' (Steps.append hsteps ws) hlast⟩

/-- It does so in every state with the same aspect. -/
theorem Respects.opening (hasp : R.Respects aspect) {p' : σ}
    (h : R.Opening us p vs q) (hp : aspect p' = aspect p) :
    ∃ q', R.Opening us p' vs q' ∧ aspect q' = aspect q := by
  obtain ⟨u, rest, p₁, hsteps, hv, ho⟩ := h
  obtain ⟨p₂, hsteps', hp₂⟩ := hasp.steps hsteps hp []
  obtain ⟨q', hv', hq'⟩ := hasp _ _ _ _ hp₂ hv
  rw [List.append_nil, List.append_nil] at hsteps'
  exact ⟨q', ⟨u, rest, p₂, hsteps', hv', ho⟩, hq'⟩

/-- A run that comes back to a list goes on for ever. -/
theorem Respects.not_ends (hasp : R.Respects aspect)
    (h : R.Loops aspect us p) (r : Except ε σ) : ¬R.Ends us p r := by
  obtain ⟨vs, q, q', hopen, hagain, hq'⟩ := h
  -- no state with the list in front has finitely many steps ahead
  have hforever : ∀ s, Acc (Relation.TransGen fun t s => R.Step s t) s →
      ∀ rest p₀, s = (vs ++ rest, p₀) → aspect p₀ = aspect q → False := by
    intro s hacc
    induction hacc with
    | intro s _ ih =>
        intro rest p₀ hs hp₀
        obtain ⟨q₁, hopen₁, hq₁⟩ := hasp.opening hagain hp₀
        obtain ⟨rest', hsteps⟩ := hopen₁.steps rest
        rw [← hs] at hsteps
        exact ih _ (Relation.transGen_swap.mpr hsteps) rest' q₁ rfl
          (hq₁.trans hq')
  intro hends
  obtain ⟨rest, hsteps⟩ := hopen.steps []
  rw [List.append_nil] at hsteps
  exact hforever _ (hends.acc.transGen.inv (Relation.transGen_swap.mpr hsteps))
    rest q rfl rfl

/-- What can be opened. -/
def openable (R : Reader ι σ ε) : Set (List ι) :=
  {vs | ∃ u p q, R.visit u p = .ok q ∧ R.opens u = some vs}

/-- Between the start of a run and the list it is in: `A` are the lists
being read, each with the aspect it was opened in. -/
structure Within (R : Reader ι σ ε) (aspect : σ → κ) (us₀ : List ι) (p₀ : σ)
    (A : Set (List ι × κ)) (us : List ι) (p : σ) : Prop where
  start : ∃ rest, R.Steps (us₀, p₀) (us ++ rest, p)
  lists : ∀ k ∈ A, ∃ q, R.Opening us₀ p₀ k.1 q ∧ aspect q = k.2 ∧
    ∃ rest, R.Steps (k.1, q) (us ++ rest, p)

variable {us₀ : List ι} {p₀ : σ} {A : Set (List ι × κ)}

theorem Within.steps (h : Within R aspect us₀ p₀ A us p)
    (hsteps : R.Steps (us, p) (vs, q)) :
    Within R aspect us₀ p₀ A vs q := by
  obtain ⟨rest, hstart⟩ := h.start
  refine ⟨⟨rest, hstart.trans (hsteps.append rest)⟩, fun k hk => ?_⟩
  obtain ⟨q', hopen, hq', rest, hin⟩ := h.lists k hk
  exact ⟨q', hopen, hq', rest, hin.trans (hsteps.append rest)⟩

/-- An item that opens a list opens it for the start and for every list
around. -/
theorem Within.opening (h : Within R aspect us₀ p₀ A (u :: us) p)
    (hv : R.visit u p = .ok q) (ho : R.opens u = some vs) :
    R.Opening us₀ p₀ vs q ∧
      ∀ k ∈ A, ∃ q', R.Opening us₀ p₀ k.1 q' ∧ aspect q' = k.2 ∧
        R.Opening k.1 q' vs q := by
  obtain ⟨rest, hstart⟩ := h.start
  refine ⟨⟨u, us ++ rest, p, hstart, hv, ho⟩, fun k hk => ?_⟩
  obtain ⟨q', hopen, hq', rest, hin⟩ := h.lists k hk
  exact ⟨q', hopen, hq', u, us ++ rest, p, hin, hv, ho⟩

/-- The opened list is one more to be within. -/
theorem Within.into (h : Within R aspect us₀ p₀ A (u :: us) p)
    (hv : R.visit u p = .ok q) (ho : R.opens u = some vs) :
    Within R aspect us₀ p₀ (insert (vs, aspect q) A) vs q := by
  have hone : R.Steps (u :: us, p) (vs ++ us, q) := by
    have hstep : R.Step (u :: us, p) ((R.opens u).getD [] ++ us, q) :=
      .visit hv
    rw [ho, Option.getD_some] at hstep
    exact .single hstep
  have hmove := h.steps hone
  refine ⟨?_, fun k hk => ?_⟩
  · obtain ⟨rest, hstart⟩ := hmove.start
    rw [List.append_assoc] at hstart
    exact ⟨_, hstart⟩
  · rcases Set.mem_insert_iff.mp hk with rfl | hk
    · refine ⟨q, (h.opening hv ho).1, rfl, [], ?_⟩
      rw [List.append_nil]
    · obtain ⟨q', hopen, hq', rest, hin⟩ := hmove.lists k hk
      rw [List.append_assoc] at hin
      exact ⟨q', hopen, hq', _, hin⟩

/-- A run that does not come back to a list ends: every list it opens is
new to the ones around it, so there are fewer and fewer left. -/
theorem ends_of_not_loops [Finite κ] (hfin : R.openable.Finite)
    (hloop : ¬R.Loops aspect us₀ p₀) (n : Nat) :
    ∀ A, ((R.openable ×ˢ Set.univ) \ A).ncard = n → ∀ us p,
      Within R aspect us₀ p₀ A us p → ∃ r, R.Ends us p r := by
  have hkeys : (R.openable ×ˢ (Set.univ : Set κ)).Finite :=
    hfin.prod Set.finite_univ
  induction n using Nat.strong_induction_on with
  | h n ihn =>
      intro A hn us
      induction us with
      | nil => exact fun p _ => ⟨_, .done p⟩
      | cons u us ihus =>
          intro p hwithin
          cases hv : R.visit u p with
          | error e => exact ⟨_, .stop hv⟩
          | ok q =>
              -- what is behind the item, once what it stands for is read
              have hrest : ∀ q', R.Steps (u :: us, p) (us, q') →
                  ∃ r, R.Ends us q' r :=
                fun q' hsteps => ihus q' (hwithin.steps hsteps)
              have hstep : R.Step (u :: us, p)
                  ((R.opens u).getD [] ++ us, q) := .visit hv
              cases ho : R.opens u with
              | none =>
                  rw [ho, Option.getD_none, List.nil_append] at hstep
                  obtain ⟨r, hr⟩ := hrest q (.single hstep)
                  refine ⟨r, .step hv ?_⟩
                  rwa [ho, Option.getD_none, List.nil_append]
              | some vs =>
                  rw [ho, Option.getD_some] at hstep
                  obtain ⟨hopen, hlists⟩ := hwithin.opening hv ho
                  have hnew : (vs, aspect q) ∉ A := by
                    intro hk
                    obtain ⟨q', hopen', hq', hagain⟩ := hlists _ hk
                    exact hloop ⟨vs, q', q, hopen', hagain, hq'.symm⟩
                  have hfewer : ((R.openable ×ˢ Set.univ) \
                      insert (vs, aspect q) A).ncard < n := by
                    rw [← hn]
                    refine Set.ncard_lt_ncard ?_ hkeys.sdiff
                    refine ⟨Set.sdiff_subset_sdiff_right (Set.subset_insert ..),
                      fun hsub => ?_⟩
                    have hkey : (vs, aspect q) ∈
                        (R.openable ×ˢ Set.univ) \ A :=
                      ⟨⟨⟨u, p, q, hv, ho⟩, trivial⟩, hnew⟩
                    exact (hsub hkey).2 (Set.mem_insert ..)
                  obtain ⟨r, hr⟩ := ihn _ hfewer _ rfl vs q
                    (hwithin.into hv ho)
                  cases r with
                  | error e =>
                      refine ⟨.error e, .step hv ?_⟩
                      rw [ho, Option.getD_some]
                      exact ends_append.mpr (.inr ⟨e, hr, rfl⟩)
                  | ok q' =>
                      obtain ⟨r, hr'⟩ := hrest q'
                        (.head hstep (hr.steps us))
                      refine ⟨r, .step hv ?_⟩
                      rw [ho, Option.getD_some]
                      exact ends_append.mpr (.inl ⟨q', hr, hr'⟩)

/-- A run ends exactly when it does not come back to a list it is
reading. -/
theorem ends_iff [Finite κ] (hasp : R.Respects aspect)
    (hfin : R.openable.Finite) :
    (∃ r, R.Ends us p r) ↔ ¬R.Loops aspect us p := by
  constructor
  · intro hex hloop
    obtain ⟨r, hr⟩ := hex
    exact hasp.not_ends hloop r hr
  · intro hloop
    refine ends_of_not_loops hfin hloop _ ∅ rfl us p ⟨⟨[], ?_⟩, ?_⟩
    · rw [List.append_nil]
    · exact fun k hk => absurd hk (Set.notMem_empty k)

end Reader

end Distplusplus.Lib
