/-
The race in the query cache.

A run reads the stored compression type in one transaction and acts on what
it read in later ones. In between another process can switch the type and
query every host anew: the first run then takes over hosts that were last
queried for the other type (`stale_candidate`).

The type a run works with is checked against the stored one once. What the
code would have to check is `stillOwn`: that the type is still the run's own
when it scans, and that nobody has switched it between scan and queries.

There is a second way: a run that is about to switch the type, has asked
some hosts, and dies of one. Its writes are taken back, the queries are not
(`diesSwitching`).

As long as neither happens, `Agreeing` holds: the records and the hosts of a
scan in progress are of one type, and the candidates with them
(`candidates_current`).
-/
import Distplusplus.Client.Proofs.History

namespace Distplusplus.Client

open Lib Common

variable {D : Type} [Store D Str Str] {views : Views}
variable {s t : State D} {e : Event} {past : List (State D × Event)}

-- ================================================================ the guard

/-- Process `i` is between its scan and its queries. -/
def midway (s : State D) (i : Nat) : Bool :=
  match s.runs[i]? with
  | some ⟨_, _, .collected _⟩ => true
  | _ => false

/-- The event commits another compression type. -/
def switches (s : State D) : Event → Bool
  | .start _ _ => false
  | .advance i =>
      match s.runs[i]? with
      | some ⟨cfg, _, .typed true⟩ => compressionChanged cfg s.env
      | _ => false

/-- Nobody has switched since process `i` scanned. -/
def undisturbed (past : List (State D × Event)) (i : Nat) : Bool :=
  past.all fun p => !(midway p.1 i && switches p.1 p.2)

/-- A run that has found its compression type stored is about to scan, and
the type is still stored; or to query, and nobody has switched since its
scan. -/
def stillOwn (past : List (State D × Event)) (s : State D) : Event → Bool
  | .start _ _ => true
  | .advance i =>
      match s.runs[i]? with
      | some ⟨cfg, _, .typed false⟩ => !compressionChanged cfg s.env
      | some ⟨_, _, .collected _⟩ => undisturbed past i
      | _ => true

/-- The event is to commit another compression type, and dies of a query. -/
def diesSwitching (views : Views) (s : State D) (e : Event) : Bool :=
  switches s e && !(asks views s e).all fun a =>
    decide (Loggable a.cfg.logsWarnings a.reply.1)

/-- Neither happens. -/
def safe (views : Views) (past : List (State D × Event)) (s : State D)
    (e : Event) : Bool :=
  stillOwn past s e && !diesSwitching views s e

/-- Candidates a run has not queried were last queried for its compression
type. -/
def Current (views : Views) (past : List (State D × Event))
    (s : State D) : Prop :=
  ∀ i run available, Fills past s i run available →
    ∀ host ∈ hosts (candidates available).entries,
      (∃ a ∈ asked views past, a.run = i ∧ a.host = host) ∨
        ∃ a, lastAsk (asked views past) host = some a ∧
          a.cfg.compressionType = run.cfg.compressionType

-- ============================================================ the invariant

/-- The records are of the stored type, and so are the hosts of a scan that
nobody has disturbed. -/
structure Agreeing (views : Views) (past : List (State D × Event))
    (s : State D) : Prop where
  recorded : Recorded (asked views past) s.env
  scans : ∀ i run v, s.runs[i]? = some run → run.phase = .collected v →
    undisturbed past i = true → storedType s.env = ownType run.cfg ∧
      ∀ host ∈ hosts v.available,
        AskedFor (asked views past) (ownType run.cfg) host

/-- A run about to query has the stored type. -/
theorem Agreeing.own (h : Agreeing views past s) {i : Nat} {run : Run}
    (hq : stillOwn past s (.advance i) = true) (cell : s.runs[i]? = some run)
    (v : Vectors) (hv : run.phase = .collected v) :
    undisturbed past i = true ∧ storedType s.env = ownType run.cfg := by
  obtain ⟨cfg, w, phase⟩ := run
  cases hv
  simp only [stillOwn, cell] at hq
  exact ⟨hq, (h.scans i _ v cell rfl hq).1⟩

/-- A run that dies of a query was not to switch the type. -/
theorem own_of_dies {asked : List Str} {i : Nat} {run : Run}
    (hq : diesSwitching views s (.advance i) = false)
    (hm : asks views s (.advance i) = asked.map (ask i run))
    (cell : s.runs[i]? = some run) (hphase : run.phase = .typed true)
    (hdies : ¬Calm run.cfg run.surroundings asked) :
    storedType s.env = ownType run.cfg := by
  obtain ⟨cfg, w, phase⟩ := run
  cases hphase
  unfold Calm at hdies
  push Not at hdies
  obtain ⟨host, hin, hlogs, hunlisted⟩ := hdies
  have hsome : (asks views s (.advance i)).all (fun a =>
      decide (Loggable a.cfg.logsWarnings a.reply.1)) = false := by
    rw [List.all_eq_false]
    refine ⟨_, hm ▸ List.mem_map_of_mem hin, ?_⟩
    rw [decide_eq_true_iff]
    exact fun hnamed => hunlisted (hnamed hlogs)
  simp only [diesSwitching, hsome, Bool.not_false, Bool.and_true, switches,
    cell] at hq
  exact compressionChanged_iff.mp hq

/-- A step keeps the records of the stored type. -/
theorem Agreeing.recorded_step (h : Agreeing views past s)
    (hq : safe views past s e = true) (hm : Moves s e t (asks views s e)) :
    Recorded (asked views ((s, e) :: past)) t.env := by
  rw [safe, Bool.and_eq_true, Bool.not_eq_true'] at hq
  rw [asked_cons]
  generalize hasks : asks views s e = asks at hm
  cases hm with
  | start cfg w => exact h.recorded
  | advance cell txn =>
      exact h.recorded.transaction txn
        (fun v hv => (h.own hq.1 cell v hv).2)
        (own_of_dies hq.2 hasks cell) _

/-- A step by which nobody switches keeps the hosts of a scan of its
type. -/
theorem Agreeing.scans_step (h : Agreeing views past s)
    (hq : stillOwn past s e = true) (hm : Moves s e t (asks views s e))
    (hs : switches s e = false) {type : Str} {kept : List Str}
    (htype : storedType s.env = type)
    (hkept : ∀ host ∈ kept, AskedFor (asked views past) type host) :
    storedType t.env = type ∧ ∀ host ∈ kept,
      AskedFor (asked views ((s, e) :: past)) type host := by
  rw [asked_cons]
  generalize asks views s e = asks at hm
  cases hm with
  | start cfg w => exact ⟨htype, hkept⟩
  | @advance i run env' phase qs cell txn =>
      have hsame : run.phase = .typed true → ownType run.cfg = type := by
        intro hphase
        obtain ⟨cfg, w, phase⟩ := run
        cases hphase
        simp only [switches, cell] at hs
        exact (compressionChanged_iff.mp hs).symm.trans htype
      have hown : ∀ v, run.phase = .collected v →
          ownType run.cfg = type :=
        fun v hv => (h.own hq cell v hv).2.symm.trans htype
      have hboth : storedType env' = type ∧
          (qs = [] ∨ ownType run.cfg = type) := by
        cases txn with
        | look => exact ⟨htype, .inl rfl⟩
        | scan => exact ⟨htype, .inl rfl⟩
        | rest => exact ⟨htype, .inl rfl⟩
        | switch hphase _ _ hnew _ _ =>
            exact ⟨hnew.trans (hsame hphase), .inr (hsame hphase)⟩
        | refresh hv => exact ⟨htype, .inr (hown _ hv)⟩
        | abort hdue _ =>
            refine ⟨htype, .inr ?_⟩
            cases hdue with
            | switch hphase => exact hsame hphase
            | refresh hv => exact hown _ hv
      obtain ⟨hnew, rfl | hown⟩ := hboth
      · exact ⟨hnew, hkept⟩
      · exact ⟨hnew, fun host hm => (hkept host hm).batch hown i qs⟩

theorem Agreeing.step (h : Agreeing views past s)
    (hq : safe views past s e = true) (hm : Moves s e t (asks views s e)) :
    Agreeing views ((s, e) :: past) t := by
  refine ⟨h.recorded_step hq hm, fun i run v hi hv hu => ?_⟩
  have hq := (Bool.and_eq_true_iff.mp hq).1
  simp only [undisturbed, List.all_cons, Bool.and_eq_true,
    Bool.not_eq_true', Bool.and_eq_false_iff] at hu
  obtain ⟨hcalm, hu⟩ := hu
  rcases hm.collected hi hv with hold | ⟨⟨old, cell, hphase, hcfg⟩, rfl,
    henv, hnone, hfrom, -⟩
  · have hmid : midway s i = true := by
      obtain ⟨cfg, w, phase⟩ := run
      cases hv
      simp only [midway, hold]
    have hs := hcalm.resolve_left (by simp [hmid])
    obtain ⟨htype, hkept⟩ := h.scans i run v hold hv hu
    exact h.scans_step hq hm hs htype hkept
  · -- the scan itself: everything registered is of the stored type
    obtain ⟨cfg, w, phase⟩ := old
    cases hphase
    simp only [stillOwn, cell, Bool.not_eq_true'] at hq
    have htype := compressionChanged_iff.mp hq
    rw [henv, asked_cons, hnone, ← hcfg]
    refine ⟨htype, fun host hin => ?_⟩
    obtain ⟨a, ha, hown⟩ :=
      h.recorded host (hfrom host (List.mem_append_left _ hin))
    exact ⟨a, ha, hown.trans htype⟩

theorem agreeing_of_traces (h : Traces (step views)
    (fun past s e => safe views past s e = true) State.start past s) :
    Agreeing views past s := by
  refine moves_invariant h ⟨recorded_start, fun i run v hi => ?_⟩
    fun past s e t hP hq hm => hP.step hq hm
  cases hi

-- ================================================================ the result

/-- As long as runs scan and query only while the stored compression type
is their own, and none dies of a query while it switches the type, every
candidate a run has not queried itself was last queried for its type. -/
theorem candidates_current (h : Traces (step views)
    (fun past s e => safe views past s e = true) State.start past s) :
    Current views past s := by
  intro i run available hf host hm
  obtain ⟨u, older, before, asked, rfl, hold, hq, cell, hcfg, hne, txn,
    hlog⟩ := hf.last h
  rw [hlog]
  rcases txn.candidate hne (mem_candidates.mp hm) with
    ⟨hin, -, -⟩ | ⟨v, hv, hkept, -⟩
  · refine .inl ⟨ask i before host, ?_, rfl, rfl⟩
    exact List.mem_append_left _
      (List.mem_reverse.mpr (List.mem_map_of_mem hin))
  · have hagree := agreeing_of_traces hold
    obtain ⟨hu, -⟩ := hagree.own (Bool.and_eq_true_iff.mp hq).1 cell v hv
    obtain ⟨a, ha, hown⟩ := ((hagree.scans i before v cell hv hu).2 host
      hkept).batch rfl i asked
    rw [hcfg] at hown
    exact .inr ⟨a, ha, ownType_inj hown⟩

/-- A client of the one server `h`, with a compression type. -/
def oneServer (compressionType : CompressionType) : Config :=
  ⟨["h".toList], compressionType, "gcc".toList, true, false⟩

/-- Everybody answers, and no time passes. -/
def allUp : Surroundings :=
  ⟨fun _ => 0, fun _ => (⟨0, [], []⟩, ⟨true, true, 7, 8⟩), fun _ => 0,
    fun _ => []⟩

/-- Two processes with zstd, one after the other. -/
def takenOver : List Event :=
  [.start (oneServer CompressionType.zstd) allUp, .advance 0, .advance 0,
    .start (oneServer CompressionType.zstd) allUp, .advance 1, .advance 1,
    .advance 1]

/-- The second takes over what the first has queried for the same type. -/
theorem candidates_current_taken :
    ∃ past s, Traces (step (D := Std.ExtTreeMap Str Str compare) littleEndian)
        (fun past s e => safe littleEndian past s e = true) State.start
        past s ∧
      (∀ a ∈ asked littleEndian past, a.run ≠ 1) ∧
      ∃ run available, Fills past s 1 run available ∧
        ∀ host ∈ hosts (candidates available).entries,
          ∃ a, lastAsk (asked littleEndian past) host = some a ∧
            a.cfg.compressionType = run.cfg.compressionType := by
  obtain ⟨past, s, h, hcheck⟩ := Traces.of_check
    (step (D := Std.ExtTreeMap Str Str compare) littleEndian) State.start
    (Q := fun past s e => safe littleEndian past s e = true)
    (q := safe littleEndian) (fun _ _ _ h => h) takenOver
    (fun past s => fillsWith past s 1 [⟨7, "h".toList⟩] &&
      (asked littleEndian past).all fun a => decide (a.run ≠ 1))
    (by decide +kernel) (by decide +kernel)
  simp only [Bool.and_eq_true, List.all_eq_true, decide_eq_true_iff]
    at hcheck
  obtain ⟨hfills, hnone⟩ := hcheck
  obtain ⟨run, hrun, hfills⟩ := Fills.of_fillsWith hfills
  refine ⟨past, s, h, hnone, run, _, hfills, fun host hm => ?_⟩
  apply (candidates_current h 1 run _ hfills host hm).resolve_left
  intro hex
  obtain ⟨a, ha, hone, -⟩ := hex
  exact hnone a ha hone

/-- A process with zstd reads the type, and before it scans a process
without compression does all of its run. -/
def race : List Event :=
  [.start (oneServer CompressionType.zstd) allUp, .advance 0, .advance 0,
    .start (oneServer CompressionType.zstd) allUp, .advance 1,
    .start (oneServer CompressionType.NONE) allUp, .advance 2, .advance 2,
    .advance 1, .advance 1]

/-- The process takes over a server that was last asked for the other
type. -/
theorem stale_candidate :
    ∃ past s, Traces (step (D := Std.ExtTreeMap Str Str compare) littleEndian)
        (fun _ _ _ => True) State.start past s ∧
      ¬Current littleEndian past s := by
  obtain ⟨past, s, h, hcheck⟩ := Traces.of_check
    (step (D := Std.ExtTreeMap Str Str compare) littleEndian) State.start
    (Q := fun _ _ _ => True) (q := fun _ _ _ => true)
    (fun _ _ _ _ => trivial) race
    (fun past s => fillsWith past s 1 [⟨7, "h".toList⟩] &&
      (s.runs[1]?.all fun run => decide (run.cfg.compressionType =
        CompressionType.zstd)) &&
      ((asked littleEndian past).all fun a => decide (a.run ≠ 1)) &&
      (lastAsk (asked littleEndian past) "h".toList).all fun a =>
        decide (a.cfg.compressionType = CompressionType.NONE))
    (by decide +kernel) (by decide +kernel)
  simp only [Bool.and_eq_true, List.all_eq_true, decide_eq_true_iff,
    Option.all_eq_true] at hcheck
  obtain ⟨⟨⟨hfills, hzstd⟩, hnone⟩, hlast⟩ := hcheck
  obtain ⟨run, hrun, hfills⟩ := Fills.of_fillsWith hfills
  refine ⟨past, s, h, fun hcur => ?_⟩
  rcases hcur 1 run _ hfills "h".toList (mem_candidates.mpr (by simp)) with
    ⟨a, ha, hone, -⟩ | ⟨a, ha, htype⟩
  · exact hnone a ha hone
  · rw [hlast a ha, hzstd run hrun] at htype
    cases htype

end Distplusplus.Client
