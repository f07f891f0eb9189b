/-
Where candidates come from, and what they have answered.

The database outlives the runs: a host that one run had configured is a
candidate of the next one as long as it answers, whatever that run has
configured (`unconfigured_candidate`). It got there by somebody's
configuration, though (`candidates_configured`).

A host is registered when it answers, whatever it answers: the two flags of
the answer are stored and not read again, so a server without the compiler
is a candidate as well (`unsuitable_candidate`). In runs one after another,
none of which dies of a query, each candidate has at least answered its last
query, and that query was for the compression type of the run
(`candidates_answered`).
-/
import Distplusplus.Client.Proofs.History

namespace Distplusplus.Client

open Lib Common

variable {D : Type} [Store D Str Str] {views : Views}
variable {s t : State D} {e : Event} {past : List (State D × Event)}
variable {log : List Ask} {i : Nat} {run : Run} {host : Str}

-- ================================================================ the origin

/-- A process that had the host configured has queried it, and it
answered. -/
def Introduced (log : List Ask) (host : Str) : Prop :=
  ∃ a ∈ log, a.host = host ∧ host ∈ a.cfg.servers ∧ a.reply.1.code = 0

/-- Everything in the database, or on the way from it, was introduced; and
the log knows the configurations. -/
structure Rooted (views : Views) (past : List (State D × Event))
    (s : State D) : Prop where
  registered : ∀ host ∈ scannedHosts s.env.servers,
    Introduced (asked views past) host
  scans : ∀ (i : Nat) run v, s.runs[i]? = some run →
    run.phase = .collected v →
    ∀ host ∈ hosts v.available ++ hosts v.expired,
      Introduced (asked views past) host
  attributed : ∀ a ∈ asked views past,
    ∃ run, s.runs[a.run]? = some run ∧ run.cfg = a.cfg

/-- Queries do not unmake an introduction. -/
theorem Introduced.mono (h : Introduced log host) (asks : List Ask) :
    Introduced (asks ++ log) host := by
  obtain ⟨a, ha, hrest⟩ := h
  exact ⟨a, List.mem_append_right _ ha, hrest⟩

/-- A configured host that answers is introduced. -/
theorem introduced_ask {asked : List Str} (hin : host ∈ asked)
    (hconf : host ∈ run.cfg.servers)
    (hans : answers run.surroundings host = true) :
    Introduced ((asked.map (ask i run)).reverse ++ log) host := by
  refine ⟨ask i run host, List.mem_append_left _ ?_, rfl, hconf,
    of_decide_eq_true hans⟩
  exact List.mem_reverse.mpr (List.mem_map_of_mem hin)

/-- A transaction registers introduced hosts. -/
theorem Transaction.introduced {env env' : Env D} {phase : Phase}
    {asked : List Str} (txn : Transaction env run env' phase asked)
    (hreg : ∀ host ∈ scannedHosts env.servers, Introduced log host)
    (hscan : ∀ v, run.phase = .collected v →
      ∀ host ∈ hosts v.available ++ hosts v.expired, Introduced log host) :
    ∀ host ∈ scannedHosts env'.servers,
      Introduced ((asked.map (ask i run)).reverse ++ log) host := by
  intro host hm
  cases txn with
  | look => exact (hreg host hm).mono _
  | scan => exact (hreg host hm).mono _
  | rest => exact (hreg host hm).mono _
  | abort => exact (hreg host hm).mono _
  | switch _ hfrom hnew _ _ _ =>
      obtain ⟨hin, hans⟩ := (hnew host).mp hm
      rcases hfrom host hin with hold | hconf
      · exact (hreg host hold).mono _
      · exact introduced_ask hin hconf hans
  | refresh hv hfrom hnew _ _ =>
      have hm := (hnew host).mp hm
      by_cases hin : host ∈ asked
      · rw [if_pos hin] at hm
        rcases hfrom host hin with hex | ⟨hconf, -⟩
        · exact (hscan _ hv host (List.mem_append_right _ hex)).mono _
        · exact introduced_ask hin hconf hm
      · rw [if_neg hin] at hm
        exact (hreg host hm).mono _

/-- A process keeps its configuration. -/
theorem Moves.cfg_eq {asks : List Ask} (h : Moves s e t asks)
    (hi : s.runs[i]? = some run) :
    ∃ run', t.runs[i]? = some run' ∧ run'.cfg = run.cfg := by
  cases h with
  | start cfg w =>
      refine ⟨run, ?_, rfl⟩
      obtain ⟨hlt, -⟩ := List.getElem?_eq_some_iff.mp hi
      rw [List.getElem?_append_left hlt]
      exact hi
  | @advance j old env' phase asked cell txn =>
      by_cases hij : j = i
      · subst hij
        obtain ⟨hlt, -⟩ := List.getElem?_eq_some_iff.mp hi
        rw [hi] at cell
        cases cell
        exact ⟨_, List.getElem?_set_self hlt, rfl⟩
      · exact ⟨run, by rw [List.getElem?_set_ne hij, hi], rfl⟩

theorem Rooted.step (h : Rooted views past s)
    (hm : Moves s e t (asks views s e)) :
    Rooted views ((s, e) :: past) t := by
  refine ⟨?_, fun i run v hi hv host hin => ?_, ?_⟩
  · rw [asked_cons]
    generalize asks views s e = asks at hm
    cases hm with
    | start cfg w => exact h.registered
    | advance cell txn =>
        exact txn.introduced h.registered fun v hv =>
          h.scans _ _ v cell hv
  · rw [asked_cons]
    rcases hm.collected hi hv with hold | ⟨-, -, -, -, hfrom, -⟩
    · exact (h.scans i run v hold hv host hin).mono _
    · exact (h.registered host (hfrom host hin)).mono _
  · intro a ha
    rw [asked_cons, List.mem_append, List.mem_reverse] at ha
    rcases ha with hnew | hold
    · generalize asks views s e = asks at hm hnew
      cases hm with
      | start cfg w => cases hnew
      | advance cell txn =>
          obtain ⟨host, -, rfl⟩ := List.mem_map.mp hnew
          obtain ⟨hlt, -⟩ := List.getElem?_eq_some_iff.mp cell
          exact ⟨_, List.getElem?_set_self hlt, rfl⟩
    · obtain ⟨run, hrun, hcfg⟩ := h.attributed a hold
      obtain ⟨run', hrun', hcfg'⟩ := hm.cfg_eq hrun
      exact ⟨run', hrun', hcfg'.trans hcfg⟩

theorem rooted_of_traces {Q : List (State D × Event) → State D → Event → Prop}
    (h : Traces (step views) Q State.start past s) :
    Rooted views past s := by
  refine moves_invariant h ⟨fun host hm => ?_, fun i run v hi => ?_,
    fun a ha => ?_⟩ fun past s e t hP _ hm => hP.step hm
  · rw [State.start, scannedHosts_empty] at hm
    cases hm
  · cases hi
  · cases ha

-- ========================================================== what is configured

/-- A candidate is configured, or was introduced. -/
theorem Rooted.candidate (h : Rooted views past s) {env' : Env D}
    {available : List Server} {asked : List Str}
    (cell : s.runs[i]? = some run)
    (txn : Transaction s.env run env' (.done available) asked)
    (hne : run.phase ≠ .done available) (hm : host ∈ hosts available) :
    host ∈ run.cfg.servers ∨ Introduced (Client.asked views past) host := by
  rcases txn.candidate hne hm with
    ⟨-, -, hreg | hconf | ⟨v, hv, hex⟩⟩ | ⟨v, hv, hkept, -⟩
  · exact .inr (h.registered host hreg)
  · exact .inl hconf
  · exact .inr (h.scans i run v cell hv host
      (List.mem_append_right _ hex))
  · exact .inr (h.scans i run v cell hv host
      (List.mem_append_left _ hkept))

/-- Every candidate of a run, in any interleaving, is in the configuration
of the run, or another process has had it configured, has queried it, and
got an answer. -/
theorem candidates_configured {available : List Server}
    (h : Traces (step views) (fun _ _ _ => True) State.start past s)
    (hf : Fills past s i run available) :
    ∀ host ∈ hosts (candidates available).entries,
      host ∈ run.cfg.servers ∨
        ∃ a ∈ asked views past, a.run ≠ i ∧ a.host = host ∧
          host ∈ a.cfg.servers ∧ a.reply.1.code = 0 := by
  intro host hm
  have hi : s.runs[i]? = some run := by
    obtain ⟨_, _, _, _, _, _, hi, _⟩ := hf
    exact hi
  have hroot := rooted_of_traces h
  obtain ⟨u, older, before, asked, rfl, hold, -, cell, hcfg, hne, txn,
    hlog⟩ := hf.last h
  rcases (rooted_of_traces hold).candidate cell txn hne
    (mem_candidates.mp hm) with hconf | ⟨a, ha, hhost, hconf, hok⟩
  · exact .inl (hcfg ▸ hconf)
  have ha : a ∈ Client.asked views ((u, .advance i) :: older) :=
    List.mem_append_right _ ha
  by_cases hrun : a.run = i
  · obtain ⟨run', hrun', hcfg'⟩ := hroot.attributed a ha
    rw [hrun, hi] at hrun'
    cases hrun'
    exact .inl (hcfg' ▸ hconf)
  · exact .inr ⟨a, ha, hrun, hhost, hconf, hok⟩

-- ==================================================== runs, one after another

/-- A process takes a step only while it is the last one started: a
sequence of runs, each of which may also end in between. -/
def oneByOne (s : State D) : Event → Bool
  | .start _ _ => true
  | .advance i => decide (i + 1 = s.runs.length)

/-- The event has no query that `init` dies of. -/
def calm (views : Views) (s : State D) (e : Event) : Bool :=
  (asks views s e).all fun a => decide (Loggable a.cfg.logsWarnings a.reply.1)

/-- A sequence of runs, none of which dies of a query. -/
def orderly (views : Views) (s : State D) (e : Event) : Bool :=
  oneByOne s e && calm views s e

/-- A client with one server and a compiler. -/
def clientOf (server compilerName : Str) : Config :=
  ⟨[server], CompressionType.zstd, compilerName, true, false⟩

/-- Every query gets this answer, and no time passes. -/
def answering (queryAnswer : QueryAnswer) : Surroundings :=
  ⟨fun _ => 0, fun _ => (⟨0, [], []⟩, queryAnswer), fun _ => 0, fun _ => []⟩

/-- A run with the server `h`, and a run with the server `g`. -/
def reconfigured : List Event :=
  [.start (clientOf "h".toList "gcc".toList) (answering ⟨true, true, 7, 8⟩),
    .advance 0, .advance 0,
    .start (clientOf "g".toList "gcc".toList) (answering ⟨true, true, 5, 8⟩),
    .advance 1, .advance 1, .advance 1]

/-- What the second run leaves. -/
def reconfiguredCandidates : List Server :=
  [⟨7, "h".toList⟩, ⟨5, "g".toList⟩]

theorem reconfigured_traces :
    ∃ past s run, Traces (step (D := Std.ExtTreeMap Str Str compare)
        littleEndian) (fun _ s e => orderly littleEndian s e = true)
        State.start past s ∧
      Fills past s 1 run reconfiguredCandidates ∧
      run.cfg.servers = ["g".toList] := by
  obtain ⟨past, s, h, hcheck⟩ := Traces.of_check
    (step (D := Std.ExtTreeMap Str Str compare) littleEndian) State.start
    (Q := fun _ s e => orderly littleEndian s e = true)
    (q := fun _ s e => orderly littleEndian s e)
    (fun _ _ _ h => h) reconfigured
    (fun past s => fillsWith past s 1 reconfiguredCandidates &&
      s.runs[1]?.all fun (run : Run) =>
        decide (run.cfg.servers = ["g".toList]))
    (by decide +kernel) (by decide +kernel)
  simp only [Bool.and_eq_true, decide_eq_true_iff, Option.all_eq_true]
    at hcheck
  obtain ⟨hfills, hconf⟩ := hcheck
  obtain ⟨run, hrun, hfills⟩ := Fills.of_fillsWith hfills
  exact ⟨past, s, run, h, hfills, hconf run hrun⟩

/-- The second of the two runs has a candidate of the first one's. -/
theorem candidates_configured_kept :
    ∃ past s run, Traces (step (D := Std.ExtTreeMap Str Str compare)
        littleEndian) (fun _ _ _ => True) State.start past s ∧
      Fills past s 1 run reconfiguredCandidates ∧
      ∃ a ∈ asked littleEndian past, a.run ≠ 1 ∧ a.host = "h".toList ∧
        "h".toList ∈ a.cfg.servers ∧ a.reply.1.code = 0 := by
  obtain ⟨past, s, run, h, hfills, hconf⟩ := reconfigured_traces
  have h := h.mono fun _ _ _ _ => trivial
  refine ⟨past, s, run, h, hfills, ?_⟩
  refine (candidates_configured h hfills "h".toList
    (mem_candidates.mpr (by decide))).resolve_left ?_
  rw [hconf]
  decide

/-- A host that the run does not have configured is a candidate. -/
theorem unconfigured_candidate :
    ∃ past s run, Traces (step (D := Std.ExtTreeMap Str Str compare)
        littleEndian) (fun _ s e => oneByOne s e = true) State.start past s ∧
      Fills past s 1 run reconfiguredCandidates ∧
      ∃ host ∈ hosts (candidates reconfiguredCandidates).entries,
        host ∉ run.cfg.servers := by
  obtain ⟨past, s, run, h, hfills, hconf⟩ := reconfigured_traces
  have h := h.mono fun _ _ _ hq => (Bool.and_eq_true_iff.mp hq).1
  refine ⟨past, s, run, h, hfills, "h".toList,
    mem_candidates.mpr (by decide), ?_⟩
  rw [hconf]
  decide

-- ============================================================ what is answered

/-- The last query of every registered host succeeded. -/
def Answered (log : List Ask) (env : Env D) : Prop :=
  ∀ host ∈ scannedHosts env.servers, ∃ a, lastAsk log host = some a ∧
    a.reply.1.code = 0

/-- A transaction keeps that, unless it dies of a query. -/
theorem Answered.transaction {env env' : Env D} {phase : Phase}
    {asked : List Str} (h : Answered log env)
    (txn : Transaction env run env' phase asked)
    (hcalm : Calm run.cfg run.surroundings asked) (i : Nat) :
    Answered ((asked.map (ask i run)).reverse ++ log) env' := by
  cases txn with
  | look => exact h
  | scan => exact h
  | rest => exact h
  | abort _ hdies => exact absurd hcalm hdies
  | switch _ _ hreg _ _ _ =>
      intro host hm
      obtain ⟨hin, hans⟩ := (hreg host).mp hm
      exact ⟨_, lastAsk_asked hin .., of_decide_eq_true hans⟩
  | refresh _ _ hreg _ _ =>
      intro host hm
      have hm := (hreg host).mp hm
      by_cases hin : host ∈ asked
      · rw [if_pos hin] at hm
        exact ⟨_, lastAsk_asked hin .., of_decide_eq_true hm⟩
      · rw [if_neg hin] at hm
        rw [lastAsk_other hin]
        exact h host hm

/-- The queries of a calm step. -/
theorem calm_of_asks {asked : List Str}
    (h : calm views s e = true)
    (hm : asks views s e = asked.map (ask i run)) :
    Calm run.cfg run.surroundings asked := by
  intro host hin
  rw [calm, hm, List.all_map, List.all_eq_true] at h
  exact of_decide_eq_true (h host hin)

/-- In a sequence of runs the records are those of the last queries, which
succeeded, and what the newest run has read is still so. -/
structure Sequential (views : Views) (past : List (State D × Event))
    (s : State D) : Prop where
  recorded : Recorded (asked views past) s.env
  answered : Answered (asked views past) s.env
  typed : ∀ (i : Nat) run, s.runs[i]? = some run →
    i + 1 = s.runs.length → run.phase = .typed false →
    storedType s.env = ownType run.cfg
  scans : ∀ (i : Nat) run v, s.runs[i]? = some run →
    i + 1 = s.runs.length → run.phase = .collected v →
    storedType s.env = ownType run.cfg ∧
      ∀ host ∈ hosts v.available,
        host ∈ scannedHosts s.env.servers ∧ host ∉ hosts v.expired

/-- The last process started is new, or has taken the step. -/
theorem Moves.newest {asks : List Ask} (hm : Moves s e t asks)
    (hq : oneByOne s e = true) (hi : t.runs[i]? = some run)
    (hlast : i + 1 = t.runs.length) :
    run.phase = .opened ∨ ∃ old asked, s.runs[i]? = some old ∧
      i + 1 = s.runs.length ∧ old.cfg = run.cfg ∧
      Transaction s.env old t.env run.phase asked := by
  cases hm with
  | start cfg w =>
      rcases getElem?_append_one_cases hi with ⟨-, rfl⟩ | hold
      · exact .inl rfl
      · obtain ⟨hlt, -⟩ := List.getElem?_eq_some_iff.mp hold
        rw [List.length_append, List.length_singleton] at hlast
        omega
  | advance cell txn =>
      simp only [oneByOne, decide_eq_true_iff] at hq
      rw [List.length_set] at hlast
      rcases getElem?_set_cases cell hi with ⟨rfl, rfl⟩ | ⟨hne, -⟩
      · exact .inr ⟨_, _, cell, hlast, rfl, txn⟩
      · omega

theorem Sequential.step (h : Sequential views past s)
    (hq : orderly views s e = true) (hm : Moves s e t (asks views s e)) :
    Sequential views ((s, e) :: past) t := by
  obtain ⟨hq, hcalm⟩ := Bool.and_eq_true_iff.mp hq
  refine ⟨?_, ?_, fun i run hi hlast hphase => ?_,
    fun i run v hi hlast hv => ?_⟩
  · rw [asked_cons]
    generalize hasks : asks views s e = asks at hm
    cases hm with
    | start cfg w => exact h.recorded
    | advance cell txn =>
        have hlast := of_decide_eq_true hq
        exact h.recorded.transaction txn
          (fun v hv => (h.scans _ _ v cell hlast hv).1)
          (fun _ hdies => absurd (calm_of_asks hcalm hasks) hdies) _
  · rw [asked_cons]
    generalize hasks : asks views s e = asks at hm
    cases hm with
    | start cfg w => exact h.answered
    | advance cell txn =>
        exact h.answered.transaction txn (calm_of_asks hcalm hasks) _
  · rcases hm.newest hq hi hlast with hnew | ⟨old, asked, -, -, hcfg, txn⟩
    · rw [hnew] at hphase
      cases hphase
    · rw [hphase] at txn
      obtain ⟨henv, hown⟩ := txn.typed_false
      rw [henv, ← hcfg, hown]
  · rcases hm.newest hq hi hlast with
      hnew | ⟨old, asked, cell, hlast, hcfg, txn⟩
    · rw [hnew] at hv
      cases hv
    · rw [hv] at txn
      obtain ⟨htyped, henv, -, hfrom, hdisj⟩ := txn.collected
      rw [henv, ← hcfg]
      exact ⟨h.typed i old cell hlast htyped, fun host hin =>
        ⟨hfrom host (List.mem_append_left _ hin), hdisj host hin⟩⟩

theorem sequential_of_traces (h : Traces (step views)
    (fun _ s e => orderly views s e = true) State.start past s) :
    Sequential views past s := by
  refine moves_invariant h ⟨recorded_start, fun host hm => ?_,
    fun i run hi => ?_, fun i run v hi => ?_⟩
    fun past s e t hP hq hm => hP.step hq hm
  · rw [State.start, scannedHosts_empty] at hm
    cases hm
  · cases hi
  · cases hi

/-- The last answer of the host says that it has the compiler of the run
and its compression type. -/
def Suitable (log : List Ask) (run : Run) (host : Str) : Prop :=
  ∃ a, lastAsk log host = some a ∧
    a.cfg.compilerName = run.cfg.compilerName ∧
    a.cfg.compressionType = run.cfg.compressionType ∧
    a.reply.2.compilerSupported = true ∧
    a.reply.2.compressionTypeSupported = true

/-- In a sequence of runs none of which dies of a query, every candidate has
answered its last query, and the query was for the compression type of the
run. -/
theorem candidates_answered {available : List Server}
    (h : Traces (step views) (fun _ s e => orderly views s e = true)
      State.start past s)
    (hf : Fills past s i run available) :
    ∀ host ∈ hosts (candidates available).entries,
      ∃ a, lastAsk (asked views past) host = some a ∧
        a.reply.1.code = 0 ∧
        a.cfg.compressionType = run.cfg.compressionType := by
  intro host hm
  obtain ⟨u, older, before, asked, rfl, hold, hq, cell, hcfg, hne, txn,
    hlog⟩ := hf.last h
  have hseq := sequential_of_traces hold
  rw [hlog]
  rcases txn.candidate hne (mem_candidates.mp hm) with
    ⟨hin, hans, -⟩ | ⟨v, hv, hkept, hex⟩
  · exact ⟨_, lastAsk_asked hin .., of_decide_eq_true hans,
      congrArg Config.compressionType hcfg⟩
  · have hlast := of_decide_eq_true (Bool.and_eq_true_iff.mp hq).1
    obtain ⟨hown, hscan⟩ := hseq.scans i before v cell hlast hv
    obtain ⟨hreg, hout⟩ := hscan host hkept
    obtain ⟨a, ha, htype⟩ := hseq.recorded host hreg
    obtain ⟨a', ha', hok⟩ := hseq.answered host hreg
    obtain rfl := Option.some.inj (ha.symm.trans ha')
    rw [lastAsk_other fun hin => hout (hex hin)]
    rw [hown, hcfg] at htype
    exact ⟨a, ha, hok, ownType_inj htype⟩

/-- So has the host the second of two runs takes over. -/
theorem candidates_answered_kept :
    ∃ past s run, Traces (step (D := Std.ExtTreeMap Str Str compare)
        littleEndian) (fun _ s e => orderly littleEndian s e = true)
        State.start past s ∧
      Fills past s 1 run reconfiguredCandidates ∧
      ∃ a, lastAsk (asked littleEndian past) "h".toList = some a ∧
        a.reply.1.code = 0 ∧
        a.cfg.compressionType = run.cfg.compressionType := by
  obtain ⟨past, s, run, h, hfills, -⟩ := reconfigured_traces
  exact ⟨past, s, run, h, hfills, candidates_answered h hfills "h".toList
    (mem_candidates.mpr (by decide))⟩

/-- A run with a server that has neither the compiler nor the compression
type. -/
def turnedDown : List Event :=
  [.start (clientOf "h".toList "gcc".toList)
      (answering ⟨false, false, 7, 8⟩), .advance 0, .advance 0]

/-- The server is a candidate. -/
theorem unsuitable_candidate :
    ∃ past s run, Traces (step (D := Std.ExtTreeMap Str Str compare)
        littleEndian) (fun _ s e => orderly littleEndian s e = true)
        State.start past s ∧
      Fills past s 0 run [⟨7, "h".toList⟩] ∧
      ∃ host ∈ hosts (candidates [⟨7, "h".toList⟩]).entries,
        ¬Suitable (asked littleEndian past) run host := by
  obtain ⟨past, s, h, hcheck⟩ := Traces.of_check
    (step (D := Std.ExtTreeMap Str Str compare) littleEndian) State.start
    (Q := fun _ s e => orderly littleEndian s e = true)
    (q := fun _ s e => orderly littleEndian s e)
    (fun _ _ _ h => h) turnedDown
    (fun past s => fillsWith past s 0 [⟨7, "h".toList⟩] &&
      (lastAsk (asked littleEndian past) "h".toList).all fun a =>
        decide (a.reply.2.compilerSupported = false))
    (by decide +kernel) (by decide +kernel)
  simp only [Bool.and_eq_true, decide_eq_true_iff, Option.all_eq_true]
    at hcheck
  obtain ⟨hfills, hno⟩ := hcheck
  obtain ⟨run, hrun, hfills⟩ := Fills.of_fillsWith hfills
  refine ⟨past, s, run, h, hfills, "h".toList,
    mem_candidates.mpr (by decide), ?_⟩
  intro hex
  obtain ⟨a, ha, -, -, hyes, -⟩ := hex
  rw [hno a ha] at hyes
  cases hyes

end Distplusplus.Client
