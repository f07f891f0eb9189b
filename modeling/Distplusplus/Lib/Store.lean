/-
Records in a key-value store.

A `Store` is a map with an enumeration, given by the laws its users rely
on; the ordered map of the standard library is one.

A record is several entries, one for each field, under keys `key h f` made
from a host and a field. When `key` is injective in both (`Injective2`),
a store that holds nothing but whole records is a `Registry`: a partial map
from hosts to functions on fields. `Represents` is that relation, and the
three things a program does with records are functions on the registry:

- `Represents.write`: putting every field of a host is `Function.update`
  with a record.
- `Represents.erase`: deleting every field is `Function.update` with `none`.
- `Represents.mem_select`, `Represents.nodup_select`: the entries whose key
  belongs to one field list each registered host once.
-/
import Mathlib.Data.List.Basic
import Mathlib.Data.List.Nodup
import Mathlib.Logic.Function.Basic

namespace Distplusplus.Lib

-- ================================================================== stores

/-- A map from keys to values that can be enumerated. -/
class Store (D : Type*) (K V : outParam Type*) where
  empty : D
  get : D → K → Option V
  put : D → K → V → D
  del : D → K → D
  scan : D → List (K × V)
  get_empty : ∀ k, get empty k = none
  get_put_self : ∀ d k v, get (put d k v) k = some v
  get_put_ne : ∀ d k v k', k' ≠ k → get (put d k v) k' = get d k'
  get_del_self : ∀ d k, get (del d k) k = none
  get_del_ne : ∀ d k k', k' ≠ k → get (del d k) k' = get d k'
  mem_scan : ∀ d k v, (k, v) ∈ scan d ↔ get d k = some v
  nodup_scan : ∀ d, ((scan d).map Prod.fst).Nodup

/-- The ordered map of the standard library, scanned in key order. -/
instance {K V : Type*} {cmp : K → K → Ordering} [Std.TransCmp cmp]
    [Std.LawfulEqCmp cmp] : Store (Std.ExtTreeMap K V cmp) K V where
  empty := ∅
  get d k := d[k]?
  put d k v := d.insert k v
  del d k := d.erase k
  scan d := d.toList
  get_empty k := Std.ExtTreeMap.getElem?_empty
  get_put_self d k v := Std.ExtTreeMap.getElem?_insert_self
  get_put_ne d k v k' h := by
    rw [Std.ExtTreeMap.getElem?_insert,
      if_neg fun he => h (Std.LawfulEqCmp.eq_of_compare he).symm]
  get_del_self d k := Std.ExtTreeMap.getElem?_erase_self
  get_del_ne d k k' h := by
    rw [Std.ExtTreeMap.getElem?_erase,
      if_neg fun he => h (Std.LawfulEqCmp.eq_of_compare he).symm]
  mem_scan d k v := Std.ExtTreeMap.mem_toList_iff_getElem?_eq_some
  nodup_scan d := by
    rw [Std.ExtTreeMap.map_fst_toList_eq_keys]
    refine Std.ExtTreeMap.distinct_keys.imp fun {a b} h he => h ?_
    rw [he]
    exact Std.ReflCmp.compare_self

/-- A scan goes by the keys: stores with the same keys list them in the same
order. -/
def ScansByKey (D : Type*) {K V : Type*} [Store D K V] : Prop :=
  ∀ d d' : D, (∀ k : K, (Store.get d k).isSome = (Store.get d' k).isSome) →
    (Store.scan d).map Prod.fst = (Store.scan d').map Prod.fst

/-- The ordered map does. -/
theorem scansByKey_treeMap {K V : Type*} {cmp : K → K → Ordering}
    [Std.TransCmp cmp] [Std.LawfulEqCmp cmp] :
    ScansByKey (Std.ExtTreeMap K V cmp) := by
  intro d d' h
  show d.toList.map Prod.fst = d'.toList.map Prod.fst
  rw [Std.ExtTreeMap.map_fst_toList_eq_keys,
    Std.ExtTreeMap.map_fst_toList_eq_keys]
  refine List.Perm.eq_of_pairwise (fun a b _ _ hab hba => ?_)
    Std.ExtTreeMap.ordered_keys Std.ExtTreeMap.ordered_keys
    ((List.perm_ext_iff_of_nodup Std.ExtTreeMap.nodup_keys
      Std.ExtTreeMap.nodup_keys).mpr fun k => ?_)
  · -- no two keys come before one another
    have hswap : cmp a b = (cmp b a).swap := Std.OrientedCmp.eq_swap
    rw [hab, hba] at hswap
    cases hswap
  · rw [Std.ExtTreeMap.mem_keys, Std.ExtTreeMap.mem_keys,
      Std.ExtTreeMap.mem_iff_isSome_getElem?,
      Std.ExtTreeMap.mem_iff_isSome_getElem?]
    exact iff_of_eq (congrArg (· = true) (h k))

-- ================================================================= records

section

variable {D K V H F : Type*} [Store D K V]

/-- Put fields of a record, in the order given. -/
def putFields (key : H → F → K) (h : H) (r : F → V) :
    List F → D → D
  | [], d => d
  | f :: fs, d => putFields key h r fs (Store.put d (key h f) (r f))

/-- Delete fields of a record, in the order given. -/
def delFields (key : H → F → K) (h : H) : List F → D → D
  | [], d => d
  | f :: fs, d => delFields key h fs (Store.del d (key h f))

variable {key : H → F → K} {h : H} {r : F → V} {k : K} {fs : List F}

/-- Other keys are left alone. -/
theorem get_putFields_ne (hk : ∀ f ∈ fs, k ≠ key h f) (d : D) :
    Store.get (putFields key h r fs d) k = Store.get d k := by
  induction fs generalizing d with
  | nil => rfl
  | cons f fs ih =>
      rw [putFields, ih (fun g hg => hk g (List.mem_cons_of_mem _ hg)),
        Store.get_put_ne _ _ _ _ (hk f (List.mem_cons_self ..))]

theorem get_delFields_ne (hk : ∀ f ∈ fs, k ≠ key h f) (d : D) :
    Store.get (delFields key h fs d) k = Store.get d k := by
  induction fs generalizing d with
  | nil => rfl
  | cons f fs ih =>
      rw [delFields, ih (fun g hg => hk g (List.mem_cons_of_mem _ hg)),
        Store.get_del_ne _ _ _ (hk f (List.mem_cons_self ..))]

/-- A field that was put has its value, however often it was put. -/
theorem get_putFields_self (hkey : Function.Injective2 key) {f : F}
    (hf : f ∈ fs) (d : D) :
    Store.get (putFields key h r fs d) (key h f) = some (r f) := by
  induction fs generalizing d with
  | nil => cases hf
  | cons g fs ih =>
      rw [putFields]
      by_cases hin : f ∈ fs
      · exact ih hin _
      · rcases List.mem_cons.mp hf with rfl | hf
        · have hne : ∀ g ∈ fs, key h f ≠ key h g := fun g hg he => by
            obtain ⟨-, rfl⟩ := hkey he
            exact hin hg
          rw [get_putFields_ne hne, Store.get_put_self]
        · exact absurd hf hin

theorem get_delFields_self (hkey : Function.Injective2 key) {f : F}
    (hf : f ∈ fs) (d : D) :
    Store.get (delFields key h fs d) (key h f) = none := by
  induction fs generalizing d with
  | nil => cases hf
  | cons g fs ih =>
      rw [delFields]
      by_cases hin : f ∈ fs
      · exact ih hin _
      · rcases List.mem_cons.mp hf with rfl | hf
        · have hne : ∀ g ∈ fs, key h f ≠ key h g := fun g hg he => by
            obtain ⟨-, rfl⟩ := hkey he
            exact hin hg
          rw [get_delFields_ne hne, Store.get_del_self]
        · exact absurd hf hin

end

-- ============================================================== registries

section

variable {D K V H F : Type*} [Store D K V]

/-- Whole records by host. -/
abbrev Registry (H F V : Type*) := H → Option (F → V)

/-- The store holds the records of the registry, and nothing else. -/
structure Represents (key : H → F → K) (d : D) (reg : Registry H F V) :
    Prop where
  get : ∀ h f, Store.get d (key h f) = (reg h).map fun r => r f
  closed : ∀ k v, Store.get d k = some v → ∃ h f, k = key h f

variable {key : H → F → K} {d : D} {reg : Registry H F V}

/-- An empty store has no records. -/
theorem Represents.empty :
    Represents key (Store.empty : D) (fun _ => none) :=
  ⟨fun _ _ => Store.get_empty _, fun k v h => by
    rw [Store.get_empty] at h
    cases h⟩

variable [DecidableEq H]

/-- Writing all fields of a host registers it. -/
theorem Represents.write (hrep : Represents key d reg)
    (hkey : Function.Injective2 key) (host : H) (r : F → V) {fs : List F}
    (hall : ∀ f, f ∈ fs) :
    Represents key (putFields key host r fs d)
      (Function.update reg host (some r)) := by
  refine ⟨fun h f => ?_, fun k v hget => ?_⟩
  · by_cases hh : h = host
    · subst hh
      rw [get_putFields_self hkey (hall f), Function.update_self]
      rfl
    · rw [get_putFields_ne (fun g _ he => hh (hkey he).1), hrep.get,
        Function.update_of_ne hh]
  · by_cases hk : ∃ f, k = key host f
    · obtain ⟨f, rfl⟩ := hk
      exact ⟨host, f, rfl⟩
    · rw [get_putFields_ne (fun f _ he => hk ⟨f, he⟩)] at hget
      exact hrep.closed k v hget

/-- Deleting all fields of a host removes it. -/
theorem Represents.erase (hrep : Represents key d reg)
    (hkey : Function.Injective2 key) (host : H) {fs : List F}
    (hall : ∀ f, f ∈ fs) :
    Represents key (delFields key host fs d)
      (Function.update reg host none) := by
  refine ⟨fun h f => ?_, fun k v hget => ?_⟩
  · by_cases hh : h = host
    · subst hh
      rw [get_delFields_self hkey (hall f), Function.update_self]
      rfl
    · rw [get_delFields_ne (fun g _ he => hh (hkey he).1), hrep.get,
        Function.update_of_ne hh]
  · by_cases hk : ∃ f, k = key host f
    · obtain ⟨f, rfl⟩ := hk
      exact ⟨host, f, rfl⟩
    · rw [get_delFields_ne (fun f _ he => hk ⟨f, he⟩)] at hget
      exact hrep.closed k v hget

omit [DecidableEq H]

variable {p : K → Bool} {f₀ : F}

/-- The entries of one field, found by their keys, are that field of the
registered hosts. -/
theorem Represents.mem_select (hrep : Represents key d reg)
    (hp : ∀ h f, p (key h f) = true ↔ f = f₀) {k : K} {v : V} :
    (k, v) ∈ (Store.scan d).filter (fun e => p e.1) ↔
      ∃ h r, reg h = some r ∧ k = key h f₀ ∧ v = r f₀ := by
  rw [List.mem_filter, Store.mem_scan]
  constructor
  · intro ⟨hget, hpk⟩
    obtain ⟨h, f, rfl⟩ := hrep.closed k v hget
    obtain rfl := (hp h f).mp hpk
    rw [hrep.get] at hget
    obtain ⟨r, hr, hv⟩ := Option.map_eq_some_iff.mp hget
    exact ⟨h, r, hr, rfl, hv.symm⟩
  · intro ⟨h, r, hr, hk, hv⟩
    subst hk hv
    refine ⟨?_, (hp h f₀).mpr rfl⟩
    rw [hrep.get, hr]
    rfl

/-- When the field names the host, each host is listed once. -/
theorem Represents.nodup_select (hrep : Represents key d reg) (name : H → V)
    (hp : ∀ h f, p (key h f) = true ↔ f = f₀)
    (hname : ∀ h r, reg h = some r → r f₀ = name h)
    (hinj : Function.Injective name) :
    (((Store.scan d).filter (fun e => p e.1)).map Prod.snd).Nodup := by
  have hscan : (Store.scan d).Nodup := List.Nodup.of_map _ (Store.nodup_scan d)
  refine List.Nodup.map_on ?_ (hscan.filter _)
  intro ⟨k, v⟩ hx ⟨k', v'⟩ hy (heq : v = v')
  obtain ⟨h, r, hr, hk, hv⟩ := (hrep.mem_select hp).mp hx
  obtain ⟨h', r', hr', hk', hv'⟩ := (hrep.mem_select hp).mp hy
  have hh : h = h' := hinj (by
    rw [← hname h r hr, ← hname h' r' hr', ← hv, ← hv', heq])
  rw [hk, hk', hh, heq]

end

end Distplusplus.Lib
