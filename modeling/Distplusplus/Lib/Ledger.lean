/-
A 64-bit counter and the tickets it stands for.

An abstract counting resource: `c` is the machine word a program keeps, `n`
the number of grants actually outstanding. A move grants one ticket or
takes some back, in the word and in the number. Word arithmetic wraps, the
number does not; the lemmas say what keeps the two together.

- `Move.exact`: without a wrap at a grant, the word is the number.
- `Move.covers`: without a wrap at a grant, a word that covers the number
  goes on covering it — what a program that can lose tickets is left with —
  and stays under any limit the grants respect (`Move.bounded`).
-/
import Mathlib.Algebra.Group.Nat.Defs
import Mathlib.Tactic.Common

namespace Distplusplus.Lib

/-- One move of a counter and of the number of tickets behind it. -/
inductive Move (c : UInt64) (n : Nat) : UInt64 → Nat → Prop
  | stay : Move c n c n
  | grant : Move c n (c + 1) (n + 1)
  | giveBack (k m : Nat) (h : n = m + k) :
      Move c n (c - UInt64.ofNat k) m

namespace Move

variable {c c' : UInt64} {n n' : Nat}

theorem toNat_succ (h : c.toNat + 1 < 2 ^ 64) :
    (c + 1).toNat = c.toNat + 1 := by
  rw [UInt64.toNat_add]
  exact Nat.mod_eq_of_lt h

/-- Taking back no more than the counter holds is plain subtraction. -/
theorem toNat_sub_ofNat {k : Nat} (h : k ≤ c.toNat) :
    (c - UInt64.ofNat k).toNat = c.toNat - k := by
  have hlt : c.toNat < 2 ^ 64 := c.toNat_lt
  have hk : (UInt64.ofNat k).toNat = k :=
    Nat.mod_eq_of_lt (Nat.lt_of_le_of_lt h hlt)
  rw [UInt64.toNat_sub, hk]
  omega

/-- A counter that covers its tickets goes on covering them, as long as no
grant wraps it. -/
theorem covers (h : Move c n c' n') (hc : n ≤ c.toNat)
    (hroom : n < n' → c.toNat + 1 < 2 ^ 64) : n' ≤ c'.toNat := by
  cases h with
  | stay => exact hc
  | grant =>
      rw [toNat_succ (hroom (Nat.lt_succ_self n))]
      omega
  | giveBack k _ h =>
      rw [toNat_sub_ofNat (by omega)]
      omega

/-- A limit that every grant starts below bounds the counter for good: what
is taken back was covered, so it never wraps. -/
theorem bounded (h : Move c n c' n') (hc : n ≤ c.toNat) {limit : Nat}
    (hlimit : limit < 2 ^ 64) (hle : c.toNat ≤ limit)
    (hroom : n < n' → c.toNat < limit) : c'.toNat ≤ limit := by
  cases h with
  | stay => exact hle
  | grant =>
      have hlt : c.toNat < limit := hroom (Nat.lt_succ_self n)
      rw [toNat_succ (by omega)]
      exact hlt
  | giveBack k _ h =>
      rw [toNat_sub_ofNat (by omega)]
      omega

/-- Without a wrap at a grant, the counter is the number of tickets. -/
theorem exact (h : Move c n c' n') (hc : c.toNat = n)
    (hroom : n < n' → n + 1 < 2 ^ 64) : c'.toNat = n' := by
  cases h with
  | stay => exact hc
  | grant =>
      rw [toNat_succ (by rw [hc]; exact hroom (Nat.lt_succ_self n)), hc]
  | giveBack k _ h =>
      rw [toNat_sub_ofNat (by omega)]
      omega

end Move

end Distplusplus.Lib
