/-
Reservations as tickets: from the log alone.

With generated uuids pairwise distinct, the reservations inserted so far
are distinct by uuid, and each is either still in the set or was removed
once (`Tickets.split`). Everything else about single use follows from this
permutation: a removal finds its ticket in the set, so not among those
removed before.

`Tickets` reads three parts of the state only, so that a step which leaves
them alone needs no argument.
-/
import Distplusplus.Server.Proofs.Accounting

namespace Distplusplus.Server

open Lib Common

variable {cfg : Config} {s t : State} {e : Event} {i : Nat} {c c' : Call}
variable {calls calls' : List Call} {bag bag' : Bag Reservation.time}
variable {log : List Note} {note : Note}

/-- A `Reserve` call about to insert its uuid. -/
def Pending (calls : List Call) (i : Nat) (uuid : Str) : Prop :=
  calls[i]? = some (.reserve (.insert uuid))

/-- What the calls, the set and the log know of each other. -/
structure Tickets (calls : List Call) (bag : Bag Reservation.time)
    (log : List Note) : Prop where
  distinct : (generated log).Nodup
  pending : ∀ i uuid, Pending calls i uuid →
    uuid ∈ generated log ∧ uuid ∉ (inserted log).map Reservation.uuid
  alone : ∀ i j uuid, Pending calls i uuid → Pending calls j uuid → i = j
  issued : ∀ r ∈ inserted log, r.uuid ∈ generated log
  once : ((inserted log).map Reservation.uuid).Nodup
  split : (bag.entries ++ removed log).Perm (inserted log)

namespace Tickets

theorem start : Tickets [] Bag.empty [] where
  distinct := List.nodup_nil
  pending := fun _ _ h => by cases h
  alone := fun _ _ _ h => by cases h
  issued := fun _ h => by cases h
  once := List.nodup_nil
  split := .refl _

/-- Cells matter only where a uuid is pending. -/
theorem cells (h : Tickets calls bag log)
    (hsub : ∀ i uuid, Pending calls' i uuid → Pending calls i uuid) :
    Tickets calls' bag log where
  distinct := h.distinct
  pending := fun i uuid hp => h.pending i uuid (hsub i uuid hp)
  alone := fun i j uuid hi hj =>
    h.alone i j uuid (hsub i uuid hi) (hsub j uuid hj)
  issued := h.issued
  once := h.once
  split := h.split

/-- A note that records a removal, perhaps of nothing. -/
theorem remove (h : Tickets calls bag log) (note : Note)
    (hg : note.generates = none)
    (hi : note.inserts = none)
    (hr : (note.removes ++ bag'.entries).Perm bag.entries) :
    Tickets calls bag' (note :: log) := by
  have hgen : generated (note :: log) = generated log := by
    simp [generated, hg]
  have hins : inserted (note :: log) = inserted log := by
    simp [inserted, hi]
  refine ⟨?_, ?_, h.alone, ?_, ?_, ?_⟩
  · rw [hgen]; exact h.distinct
  · rw [hgen, hins]; exact h.pending
  · rw [hgen, hins]; exact h.issued
  · rw [hins]; exact h.once
  · rw [hins]
    refine List.Perm.trans ?_ h.split
    show (bag'.entries ++ (note.removes ++ removed log)).Perm _
    rw [← List.append_assoc]
    exact (List.perm_append_comm.trans hr).append_right _

/-- The generator answers a call with a new uuid. -/
theorem generate (h : Tickets calls bag log) {uuid : Str}
    (hnew : uuid ∉ generated log)
    (cell : calls[i]? = some (.reserve .generate)) :
    Tickets (calls.set i (.reserve (.insert uuid))) bag
      (.generated uuid :: log) := by
  have hgen : generated (.generated uuid :: log) = uuid :: generated log := rfl
  have hins : inserted (.generated uuid :: log) = inserted log := rfl
  -- a cell that is pending now was pending, or is the call that got the uuid
  have back : ∀ j v, Pending (calls.set i (.reserve (.insert uuid))) j v →
      (j = i ∧ v = uuid) ∨ (j ≠ i ∧ Pending calls j v) := by
    intro j v hp
    rcases getElem?_set_cases cell hp with ⟨rfl, heq⟩ | ⟨hne, hold⟩
    · cases heq
      exact .inl ⟨rfl, rfl⟩
    · exact .inr ⟨hne, hold⟩
  have other : ∀ j v, Pending calls j v → v ≠ uuid := by
    intro j v hp heq
    subst heq
    exact hnew (h.pending j v hp).1
  refine ⟨?_, ?_, ?_, ?_, h.once, h.split⟩
  · rw [hgen]
    exact List.nodup_cons.mpr ⟨hnew, h.distinct⟩
  · intro j v hp
    rw [hgen, hins]
    rcases back j v hp with ⟨-, rfl⟩ | ⟨-, hold⟩
    · refine ⟨List.mem_cons_self, fun hmem => ?_⟩
      obtain ⟨r, hr, rfl⟩ := List.mem_map.mp hmem
      exact hnew (h.issued r hr)
    · obtain ⟨hg, hi⟩ := h.pending j v hold
      exact ⟨List.mem_cons_of_mem _ hg, hi⟩
  · intro j k v hj hk
    rcases back j v hj with ⟨hji, hv⟩ | ⟨-, hj'⟩
    · rcases back k v hk with ⟨hki, -⟩ | ⟨-, hk'⟩
      · rw [hji, hki]
      · exact absurd hv (other k v hk')
    · rcases back k v hk with ⟨-, hv⟩ | ⟨-, hk'⟩
      · exact absurd hv (other j v hj')
      · exact h.alone j k v hj' hk'
  · intro r hr
    rw [hgen]
    exact List.mem_cons_of_mem _ (h.issued r hr)

/-- A call inserts its uuid. -/
theorem insert (h : Tickets calls bag log) {uuid : Str} {time : Int}
    {c' : Call} (cell : calls[i]? = some (.reserve (.insert uuid)))
    (hc' : ∀ v, c' ≠ .reserve (.insert v)) :
    Tickets (calls.set i c') (bag.insert ⟨uuid, time⟩)
      (.inserted ⟨uuid, time⟩ :: log) := by
  have hgen : generated (.inserted ⟨uuid, time⟩ :: log) = generated log := rfl
  have hins : inserted (.inserted ⟨uuid, time⟩ :: log)
      = ⟨uuid, time⟩ :: inserted log := rfl
  obtain ⟨hmem, hnew⟩ := h.pending i uuid cell
  have back : ∀ j v, Pending (calls.set i c') j v →
      j ≠ i ∧ Pending calls j v := by
    intro j v hp
    rcases getElem?_set_cases cell hp with ⟨-, heq⟩ | hold
    · exact absurd heq.symm (hc' v)
    · exact hold
  refine ⟨h.distinct, ?_, ?_, ?_, ?_, ?_⟩
  · intro j v hp
    obtain ⟨hne, hold⟩ := back j v hp
    obtain ⟨hg, hi⟩ := h.pending j v hold
    refine ⟨hg, ?_⟩
    rw [hins, List.map_cons, List.mem_cons, not_or]
    refine ⟨?_, hi⟩
    intro heq
    subst heq
    exact hne (h.alone j i _ hold cell)
  · intro j k v hj hk
    exact h.alone j k v (back j v hj).2 (back k v hk).2
  · intro r hr
    rw [hins] at hr
    rcases List.mem_cons.mp hr with rfl | hr
    · exact hmem
    · exact h.issued r hr
  · rw [hins, List.map_cons]
    exact List.nodup_cons.mpr ⟨hnew, h.once⟩
  · rw [hins]
    show ((bag.insert ⟨uuid, time⟩).entries ++ removed log).Perm _
    exact ((bag.insert_perm _).append_right _).trans (h.split.cons _)

/-- The uuids in the set are pairwise distinct. -/
theorem distinct_entries (h : Tickets calls bag log) :
    (bag.entries.map Reservation.uuid).Nodup := by
  have hnd := (h.split.map Reservation.uuid).nodup_iff.mpr h.once
  rw [List.map_append] at hnd
  exact hnd.of_append_left

/-- No uuid is removed twice. -/
theorem removed_once (h : Tickets calls bag log) :
    ((removed log).map Reservation.uuid).Nodup := by
  have hnd := (h.split.map Reservation.uuid).nodup_iff.mpr h.once
  rw [List.map_append] at hnd
  exact hnd.of_append_right

/-- What is in the set was inserted and is not removed yet. -/
theorem of_mem (h : Tickets calls bag log) {r : Reservation}
    (hr : r ∈ bag.entries) :
    r ∈ inserted log ∧ r.uuid ∉ (removed log).map Reservation.uuid := by
  refine ⟨h.split.mem_iff.mp (List.mem_append_left _ hr), fun hmem => ?_⟩
  have hnd := (h.split.map Reservation.uuid).nodup_iff.mpr h.once
  rw [List.map_append, List.nodup_append] at hnd
  exact hnd.2.2 _ (List.mem_map_of_mem hr) _ hmem rfl

/-- A lookup that finds its uuid finds one entry. -/
theorem matching_eq (h : Tickets calls bag log) {uuid : Str}
    (hsome : bag.matching (·.uuid = uuid) ≠ []) :
    ∃ r, bag.matching (·.uuid = uuid) = [r] ∧ r.uuid = uuid ∧
      r ∈ bag.entries := by
  have hone := length_matching_of_distinct h.distinct_entries uuid
  cases hm : bag.matching (·.uuid = uuid) with
  | nil => exact absurd hm hsome
  | cons r rest =>
      rw [hm] at hone
      have hrest : rest = [] := by
        cases rest with
        | nil => rfl
        | cons _ _ => simp at hone
      have hr : r ∈ bag.matching (·.uuid = uuid) := by
        rw [hm]
        exact List.mem_cons_self
      obtain ⟨hmem, hu⟩ := List.mem_filter.mp hr
      exact ⟨r, by rw [hrest], of_decide_eq_true hu, hmem⟩

-- ================================================================ preserved

/-- A step of a call. -/
theorem callEffect (h : Tickets s.calls s.reservations s.log)
    (hf : fresh s e = true) (cell : s.calls[i]? = some c)
    (hc : CallEffect cfg s i e c c' t) :
    Tickets (t.setCall i c').calls t.reservations t.log := by
  -- a cell that becomes anything but pending
  have moved : ∀ {d : Call}, (∀ v, d ≠ .reserve (.insert v)) →
      ∀ j v, Pending (s.calls.set i d) j v → Pending s.calls j v := by
    intro d hd j v hp
    rcases getElem?_set_cases cell hp with ⟨-, heq⟩ | ⟨-, hold⟩
    · exact absurd heq.symm (hd v)
    · exact hold
  cases hc with
  | quiet hq => exact h.cells (moved (by cases hq <;> intro v hv <;> cases hv))
  | pass => exact h.cells (moved (by intro v hv; cases hv))
  | grant => exact h.cells (moved (by intro v hv; cases hv))
  | release hr =>
      exact h.cells (moved (by cases hr <;> intro v hv <;> cases hv))
  | generate uuid => exact h.generate (of_decide_eq_true hf) cell
  | insert uuid free => exact h.insert cell (by intro v hv; cases hv)
  | refuse host request free hnone =>
      exact (h.remove _ rfl rfl (.refl _)).cells
        (moved (by intro v hv; cases hv))
  | take host request free hsome =>
      have herase := s.reservations.eraseIf_perm (·.uuid = request.uuid)
      have hlog := h.remove (.presented i request.uuid s.clock
        (s.reservations.matching (·.uuid = request.uuid))) rfl rfl herase
      exact hlog.cells (moved (by intro v hv; cases hv))
  | launch host request data input output args =>
      exact (h.remove _ rfl rfl (.refl _)).cells
        (moved (by intro v hv; cases hv))

/-- A step of the machine. -/
theorem effect (h : Tickets s.calls s.reservations s.log)
    (hf : fresh s e = true)
    (he : Effect cfg s e t) : Tickets t.calls t.reservations t.log := by
  cases he with
  | tick => exact h
  | requestStop => exact h
  | die => exact h
  | arrive ha =>
      refine h.cells fun i uuid hp => ?_
      rcases getElem?_append_one_cases hp with ⟨-, heq⟩ | hold
      · subst heq
        cases ha
      · exact hold
  | call cell hc => exact h.callEffect hf cell hc
  | reaper hr =>
      cases hr with
      | stop => exact h
      | stamp => exact h
      | sleep => exact h
      | subtract => exact h
      | reap timestamp since _ _ =>
          apply h.remove _ rfl rfl
          show (s.reservations.below timestamp ++ _).Perm _
          rw [s.reservations.eraseBelow_append]

end Tickets

/-- Every state of a run with pairwise distinct uuids. -/
theorem Tickets.of_reaches {Q : State → Event → Prop} {clock : Int}
    (hQ : ∀ s e, Q s e → fresh s e = true)
    (h : Reaches (step cfg) Q (State.start clock) s) :
    Tickets s.calls s.reservations s.log := by
  refine h.invariant (P := fun s =>
    Tickets s.calls s.reservations s.log) Tickets.start ?_
  intro s e t hs hq hse
  exact hs.effect (hQ s e hq) (step_effect hse)

end Distplusplus.Server
