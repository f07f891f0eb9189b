/-
Programs that act.

A program that talks to the world leaves two things behind, however it
ends: what it did, in order, and its result or the exception that stopped
it. `Acts α ε β` is the two together. Sequencing appends the actions, and
what was done before an exception stays done; that is what makes it another
monad than `Except` over a writer's result.

# What is here

- The monad, with `Acts.act`, `Acts.stop` and the handler `Acts.handle`.
- `Acts.Ensures x P`: the specification `P` of actions and end, with a rule
  for each construction. They are equivalences, so a straight-line program
  is taken apart from the front (`ensures_bind`), and `Ensures.mono` weakens
  the end of it.
- The equations of actions and result for a program whose pieces are known
  to succeed (`bind_of_ok`, `bind_of_error`).

Nothing here knows the program.
-/
import Mathlib.Data.List.Basic

namespace Distplusplus.Lib

/-- What a program did, and how it ended. -/
structure Acts (α ε β : Type) where
  done : List α
  result : Except ε β

namespace Acts

variable {α ε β γ : Type}

/-- One action. -/
def act (a : α) : Acts α ε Unit := ⟨[a], .ok ()⟩

/-- An exception. -/
def stop (e : ε) : Acts α ε β := ⟨[], .error e⟩

/-- One program, and then another. -/
def bind (x : Acts α ε β) (f : β → Acts α ε γ) : Acts α ε γ :=
  match x.result with
  | .error e => ⟨x.done, .error e⟩
  | .ok b => ⟨x.done ++ (f b).done, (f b).result⟩

instance : Monad (Acts α ε) where
  pure b := ⟨[], .ok b⟩
  bind := Acts.bind

/-- A program with a handler for some of its exceptions. -/
def handle (x : Acts α ε β) (caught : ε → Option (Acts α ε β)) :
    Acts α ε β :=
  match x.result with
  | .ok _ => x
  | .error e =>
      match caught e with
      | none => x
      | some y => ⟨x.done ++ y.done, y.result⟩

/-- Actions and end are as specified. -/
def Ensures (x : Acts α ε β) (P : List α → Except ε β → Prop) : Prop :=
  P x.done x.result

variable {x : Acts α ε β} {f : β → Acts α ε γ} {b : β} {e : ε}
variable {P Q : List α → Except ε β → Prop}
variable {R : List α → Except ε γ → Prop}

-- ============================================================== equations

theorem bind_of_error (h : x.result = .error e) :
    x >>= f = ⟨x.done, .error e⟩ := by
  show x.bind f = _
  rw [bind, h]

theorem bind_of_ok (h : x.result = .ok b) :
    x >>= f = ⟨x.done ++ (f b).done, (f b).result⟩ := by
  show x.bind f = _
  rw [bind, h]

section

variable {caught : ε → Option (Acts α ε β)} {y : Acts α ε β}

theorem handle_of_ok (h : x.result = .ok b) : x.handle caught = x := by
  rw [handle, h]

theorem handle_of_none (h : x.result = .error e) (hc : caught e = none) :
    x.handle caught = x := by
  rw [handle, h]
  dsimp only
  rw [hc]

theorem handle_of_some (h : x.result = .error e) (hc : caught e = some y) :
    x.handle caught = ⟨x.done ++ y.done, y.result⟩ := by
  rw [handle, h]
  dsimp only
  rw [hc]

end

-- ================================================================== rules

theorem Ensures.mono (h : x.Ensures P) (hPQ : ∀ as r, P as r → Q as r) :
    x.Ensures Q := hPQ _ _ h

theorem ensures_pure : (pure b : Acts α ε β).Ensures P ↔ P [] (.ok b) :=
  Iff.rfl

theorem ensures_act {P : List α → Except ε Unit → Prop} {a : α} :
    (act a : Acts α ε Unit).Ensures P ↔ P [a] (.ok ()) := Iff.rfl

/-- What comes after is specified by what is left of the specification. -/
theorem ensures_bind : (x >>= f).Ensures R ↔ x.Ensures fun as r =>
    (∀ e, r = .error e → R as (.error e)) ∧
      ∀ b, r = .ok b → (f b).Ensures fun as' r' => R (as ++ as') r' := by
  constructor
  · intro h
    constructor
    · intro e he
      rw [bind_of_error he] at h
      exact h
    · intro b hb
      rw [bind_of_ok hb] at h
      exact h
  · intro h
    obtain ⟨herror, hok⟩ := h
    cases hr : x.result with
    | error e =>
        rw [bind_of_error hr]
        exact herror e hr
    | ok b =>
        rw [bind_of_ok hr]
        exact hok b hr

end Acts

end Distplusplus.Lib
