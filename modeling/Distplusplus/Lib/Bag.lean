/-
`std::multiset` under a key: a list kept sorted by `key`, equal keys in the
order they came. The order is a field, so an unsorted bag cannot be built,
and the two range operations of the container — insertion at the upper
bound, erasure up to the lower bound — are stated by membership alone.

The two erasures report what they removed (`matching`, `below`): a caller
that counts removals counts those lists.
-/
import Mathlib.Data.List.Perm.Basic
import Mathlib.Data.List.TakeWhile
import Mathlib.Order.Lattice

namespace Distplusplus.Lib

variable {α κ : Type*} [LinearOrder κ]

/-- A multiset ordered by `key`, as the container iterates over it. -/
structure Bag (key : α → κ) where
  entries : List α
  sorted : entries.Pairwise fun a b => key a ≤ key b

namespace Bag

variable {key : α → κ}

def empty : Bag key := ⟨[], List.Pairwise.nil⟩

def size (b : Bag key) : Nat := b.entries.length

@[simp] theorem size_empty : (empty : Bag key).size = 0 := rfl

-- ============================================================ insertion

/-- Put an element at the upper bound of its key. -/
def place (key : α → κ) (x : α) (l : List α) : List α :=
  l.takeWhile (fun a => key a ≤ key x) ++
    x :: l.dropWhile (fun a => key a ≤ key x)

theorem place_perm (x : α) (l : List α) : (place key x l).Perm (x :: l) := by
  unfold place
  apply List.perm_middle.trans
  rw [List.takeWhile_append_dropWhile]

theorem place_cons (x a : α) (l : List α) :
    place key x (a :: l)
      = if key a ≤ key x then a :: place key x l else x :: a :: l := by
  unfold place
  by_cases h : key a ≤ key x <;> simp [h]

theorem place_sorted (x : α) {l : List α}
    (h : l.Pairwise fun a b => key a ≤ key b) :
    (place key x l).Pairwise fun a b => key a ≤ key b := by
  induction l with
  | nil => simp [place]
  | cons a l ih =>
      rw [List.pairwise_cons] at h
      rw [place_cons]
      split
      case isTrue hle =>
        rw [List.pairwise_cons]
        refine ⟨fun b hb => ?_, ih h.2⟩
        rcases List.mem_cons.mp ((place_perm x l).mem_iff.mp hb) with rfl | hb
        · exact hle
        · exact h.1 b hb
      case isFalse hlt =>
        have hxa : key x ≤ key a := le_of_lt (not_le.mp hlt)
        rw [List.pairwise_cons, List.pairwise_cons]
        refine ⟨fun b hb => ?_, h⟩
        rcases List.mem_cons.mp hb with rfl | hb
        · exact hxa
        · exact hxa.trans (h.1 b hb)

/-- `insert`, and `emplace_hint` with the end as hint. -/
def insert (b : Bag key) (x : α) : Bag key :=
  ⟨place key x b.entries, place_sorted x b.sorted⟩

theorem insert_perm (b : Bag key) (x : α) :
    (b.insert x).entries.Perm (x :: b.entries) := place_perm x b.entries

@[simp] theorem mem_insert {b : Bag key} {x y : α} :
    y ∈ (b.insert x).entries ↔ y = x ∨ y ∈ b.entries := by
  rw [(b.insert_perm x).mem_iff, List.mem_cons]

@[simp] theorem size_insert (b : Bag key) (x : α) :
    (b.insert x).size = b.size + 1 := (b.insert_perm x).length_eq

-- ============================================================== erasure

/-- The elements `erase_if` removes. -/
def matching (b : Bag key) (p : α → Bool) : List α := b.entries.filter p

/-- `std::erase_if`. -/
def eraseIf (b : Bag key) (p : α → Bool) : Bag key :=
  ⟨b.entries.filter (fun a => !p a), b.sorted.filter _⟩

@[simp] theorem mem_eraseIf {b : Bag key} {p : α → Bool} {a : α} :
    a ∈ (b.eraseIf p).entries ↔ a ∈ b.entries ∧ p a = false := by
  simp [eraseIf]

theorem eraseIf_perm (b : Bag key) (p : α → Bool) :
    (b.matching p ++ (b.eraseIf p).entries).Perm b.entries :=
  List.filter_append_perm p b.entries

theorem size_eraseIf (b : Bag key) (p : α → Bool) :
    (b.matching p).length + (b.eraseIf p).size = b.size := by
  have := (b.eraseIf_perm p).length_eq
  rw [List.length_append] at this
  exact this

/-- The elements before `lower_bound k`. -/
def below (b : Bag key) (k : κ) : List α :=
  b.entries.takeWhile fun a => key a < k

/-- `erase(begin(), lower_bound(k))`. -/
def eraseBelow (b : Bag key) (k : κ) : Bag key :=
  ⟨b.entries.dropWhile fun a => key a < k,
    b.sorted.sublist (List.dropWhile_sublist _)⟩

theorem eraseBelow_append (b : Bag key) (k : κ) :
    b.below k ++ (b.eraseBelow k).entries = b.entries :=
  List.takeWhile_append_dropWhile ..

theorem size_eraseBelow (b : Bag key) (k : κ) :
    (b.below k).length + (b.eraseBelow k).size = b.size := by
  have := congrArg List.length (b.eraseBelow_append k)
  rw [List.length_append] at this
  exact this

/-- Past the first element that is not smaller, a sorted list has no
smaller element: this is where the order of the container is used. -/
theorem le_of_mem_dropWhile {k : κ} {a : α} :
    ∀ {l : List α}, l.Pairwise (fun a b => key a ≤ key b) →
      a ∈ l.dropWhile (fun a => key a < k) → k ≤ key a := by
  intro l
  induction l with
  | nil => intro _ h; cases h
  | cons b l ih =>
      intro hs h
      rw [List.pairwise_cons] at hs
      rw [List.dropWhile_cons] at h
      split at h
      case isTrue => exact ih hs.2 h
      case isFalse hb =>
        have hkb : k ≤ key b := by simpa using hb
        rcases List.mem_cons.mp h with rfl | h
        · exact hkb
        · exact hkb.trans (hs.1 a h)

/-- What stays has a key from the bound on. -/
theorem le_of_mem_eraseBelow {b : Bag key} {k : κ} {a : α}
    (h : a ∈ (b.eraseBelow k).entries) : k ≤ key a :=
  le_of_mem_dropWhile b.sorted h

/-- What goes has a smaller key. -/
theorem lt_of_mem_below {b : Bag key} {k : κ} {a : α}
    (h : a ∈ b.below k) : key a < k := by
  simpa using List.mem_takeWhile_imp h

/-- What stays was there. -/
theorem mem_of_mem_eraseBelow {b : Bag key} {k : κ} {a : α}
    (h : a ∈ (b.eraseBelow k).entries) : a ∈ b.entries := by
  rw [← b.eraseBelow_append k]
  exact List.mem_append_right _ h

end Bag

end Distplusplus.Lib
