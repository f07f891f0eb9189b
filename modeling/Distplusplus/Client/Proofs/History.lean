/-
What the transactions of the query cache do to it, and who asked whom.

A transaction looks at the compression type, scans, or queries; which hosts
it queries can be read off the state it starts in (`queried`: no other
reply makes a difference, `advance_congr`), and the log of all queries so
far off the past (`asked`). A query is made even when the transaction does
not come to its end: one that `init` dies of takes all writes back, but not
what the servers were asked.

`Transaction` says, over the hosts alone, all that a transaction can do:
which hosts are registered afterwards, which are available, and who was
asked. `advance_transaction` is the only place where the steps of `init`
are opened up. `moves_invariant` is the induction every fact about
histories goes through.

- `Recorded`: what a registered host says about its last query.
- `Fills`: the step by which a run leaves its candidates, and
  `Transaction.candidate`, where they come from.
-/
import Distplusplus.Client.Proofs.Classify
import Distplusplus.Lib.Trace

namespace Distplusplus.Client

open Lib Common

variable {D : Type} [Store D Str Str] {views : Views}
variable {env env' : Env D} {run : Run} {s t : State D} {e : Event}
variable {past : List (State D × Event)} {i : Nat}

-- ================================================================= queries

/-- A query: which process asked, with which configuration, whom, and the
reply. -/
structure Ask where
  run : Nat
  cfg : Config
  host : Str
  reply : ReceivedStatus × QueryAnswer

variable {log : List Ask}

/-- The query process `i` makes of a host. -/
def ask (i : Nat) (run : Run) (host : Str) : Ask :=
  ⟨i, run.cfg, host, run.surroundings.query host⟩

/-- The hosts a run queries in its next transaction, in order. -/
def queried (views : Views) (env : Env D) (run : Run) : List Str :=
  match run.phase with
  | .typed true =>
      match collect views true run.surroundings.examined env.servers with
      | .ok v => untilDead run.cfg run.surroundings
          (hosts (toQuery run.cfg true v))
      | .error _ => []
  | .collected v => untilDead run.cfg run.surroundings
      (hosts (toQuery run.cfg false v))
  | _ => []

theorem mem_untilDead {cfg : Config} {w : Surroundings} {names : List Str}
    {host : Str} (h : host ∈ untilDead cfg w names) : host ∈ names := by
  induction names with
  | nil => exact h
  | cons name rest ih =>
      rw [untilDead] at h
      split at h
      · exact (List.mem_cons.mp h).elim (fun heq => heq ▸ List.mem_cons_self ..)
          fun hm => List.mem_cons_of_mem _ (ih hm)
      · rw [List.mem_singleton.mp h]
        exact List.mem_cons_self ..

/-- The query a run dies of is made. -/
theorem untilDead_calm_iff {cfg : Config} {w : Surroundings}
    {names : List Str} :
    Calm cfg w (untilDead cfg w names) ↔ Calm cfg w names := by
  induction names with
  | nil => rfl
  | cons name rest ih =>
      unfold Calm at ih ⊢
      rw [untilDead]
      split
      case isTrue hnamed => rw [List.forall_mem_cons, ih, List.forall_mem_cons]
      case isFalse hdies =>
        rw [List.forall_mem_cons, List.forall_mem_cons]
        exact iff_of_false (fun h => hdies h.1) fun h => hdies h.1

/-- The query loop uses the replies of the hosts it asks alone. -/
theorem refresh_congr (views : Views) (cfg : Config) {w : Surroundings}
    {query : Str → ReceivedStatus × QueryAnswer} {vector : List Server}
    (h : ∀ host ∈ untilDead cfg w (hosts vector), query host = w.query host)
    (r : D × List Server) :
    refresh views cfg { w with query := query } vector r =
      refresh views cfg w vector r := by
  induction vector generalizing r with
  | nil => rfl
  | cons s rest ih =>
      obtain ⟨db, available⟩ := r
      rw [hosts_cons, untilDead] at h
      by_cases hnamed : Loggable cfg.logsWarnings (w.query s.server).1
      · rw [if_pos hnamed, List.forall_mem_cons] at h
        rw [refresh, refresh]
        simp only [h.1, logPurge_ok hnamed, ih h.2]
      · rw [if_neg hnamed, List.forall_mem_singleton] at h
        obtain ⟨e, he⟩ := logPurge_error hnamed
        have hok : (w.query s.server).1.code ≠ 0 :=
          fun hok => hnamed (loggable_ok hok)
        rw [refresh, refresh]
        simp only [h, if_neg hok, he]

/-- So does a transaction: `queried` has everybody it asks. -/
theorem advance_congr {query : Str → ReceivedStatus × QueryAnswer}
    (h : ∀ host ∈ queried views env run,
      query host = run.surroundings.query host) :
    advance views run.cfg { run.surroundings with query := query }
        (env, run.phase) =
      advance views run.cfg run.surroundings (env, run.phase) := by
  obtain ⟨cfg, w, phase⟩ := run
  cases phase with
  | opened => rfl
  | done available => rfl
  | failed e => rfl
  | collected v =>
      have hsame := refresh_congr views cfg h
        (env.servers, v.available)
      simp only [toQuery, Bool.false_eq_true, if_false] at hsame
      simp only [advance, hsame]
  | typed changed =>
      cases changed with
      | false => rfl
      | true =>
          simp only [queried] at h
          simp only [advance]
          cases hv : collect views true w.examined env.servers with
          | error e => rfl
          | ok v =>
              rw [hv] at h
              have hsame := refresh_congr views cfg h
                (env.servers, v.available)
              simp only [toQuery, if_true] at hsame
              simp only [hsame]

/-- The queries of an event. -/
def asks (views : Views) (s : State D) : Event → List Ask
  | .start _ _ => []
  | .advance i =>
      match s.runs[i]? with
      | none => []
      | some run => (queried views s.env run).map (ask i run)

/-- All queries so far, the last one first. -/
def asked (views : Views) (past : List (State D × Event)) : List Ask :=
  emitted (asks views) past

/-- The last query of a host. -/
def lastAsk (log : List Ask) (host : Str) : Option Ask :=
  latest Ask.host log host

/-- The stored compression type. -/
def storedType (env : Env D) : Str :=
  view env.misc "compressionType".toList

/-- The compression type of a configuration, as it is stored. -/
def ownType (cfg : Config) : Str := toDecimal cfg.compressionType.toInt

theorem compressionChanged_iff {cfg : Config} :
    compressionChanged cfg env = false ↔ storedType env = ownType cfg := by
  rw [compressionChanged, decide_eq_false_iff_not, not_not]
  rfl

/-- Different compression types are stored differently. -/
theorem ownType_inj {cfg cfg' : Config} (h : ownType cfg = ownType cfg') :
    cfg.compressionType = cfg'.compressionType :=
  Int32.toInt_inj.mp (toDecimal_injective h)

-- ============================================================ transactions

/-- The hosts are among those a run is to query in its next transaction. -/
inductive Due (env : Env D) (run : Run) (asked : List Str) : Prop
  | switch : run.phase = .typed true →
      (∀ host ∈ asked, host ∈ scannedHosts env.servers ∨
        host ∈ run.cfg.servers) → Due env run asked
  | refresh {v : Vectors} : run.phase = .collected v →
      (∀ host ∈ asked, host ∈ hosts v.expired ∨
        host ∈ run.cfg.servers ∧ host ∉ hosts v.available) →
      Due env run asked

/-- All that a transaction of a run can do. The last argument is who was
asked. -/
inductive Transaction (env : Env D) (run : Run) :
    Env D → Phase → List Str → Prop
  | look : run.phase = .opened →
      Transaction env run env (.typed (compressionChanged run.cfg env)) []
  | scan {v : Vectors} : run.phase = .typed false →
      (∀ host ∈ hosts v.available ++ hosts v.expired,
        host ∈ scannedHosts env.servers) →
      (∀ host ∈ hosts v.available, host ∉ hosts v.expired) →
      Transaction env run env (.collected v) []
  | switch {env' : Env D} {available : List Server} {asked : List Str} :
      run.phase = .typed true →
      (∀ host ∈ asked, host ∈ scannedHosts env.servers ∨
        host ∈ run.cfg.servers) →
      (∀ host, host ∈ scannedHosts env'.servers ↔
        host ∈ asked ∧ answers run.surroundings host = true) →
      storedType env' = ownType run.cfg →
      hosts available = asked.filter (answers run.surroundings) →
      Calm run.cfg run.surroundings asked →
      Transaction env run env' (.done available) asked
  | refresh {v : Vectors} {db : D} {phase : Phase} {asked : List Str} :
      run.phase = .collected v →
      (∀ host ∈ asked, host ∈ hosts v.expired ∨
        host ∈ run.cfg.servers ∧ host ∉ hosts v.available) →
      (∀ host, host ∈ scannedHosts db ↔
        if host ∈ asked then answers run.surroundings host = true
        else host ∈ scannedHosts env.servers) →
      ((∃ e, phase = .failed e) ∨ ∃ available, phase = .done available ∧
        hosts available =
          hosts v.available ++ asked.filter (answers run.surroundings)) →
      Calm run.cfg run.surroundings asked →
      Transaction env run ⟨env.misc, db⟩ phase asked
  | abort {e : InitError} {asked : List Str} : Due env run asked →
      ¬Calm run.cfg run.surroundings asked →
      Transaction env run env (.failed e) asked
  | rest : ((∃ available, run.phase = .done available) ∨
        ∃ e, run.phase = .failed e) →
      Transaction env run env run.phase []

/-- A transaction with queries registers who answered. -/
theorem Registered.mem_refresh {db : D} {reg : Registry Str Field Str}
    (h : Registered views db reg) {cfg : Config} {w : Surroundings}
    {vector available : List Server} {r : D × List Server}
    (hr : Client.refresh views cfg w vector (db, available) = .ok r)
    (host : Str) :
    host ∈ scannedHosts r.1 ↔
      if host ∈ hosts vector then answers w host = true
      else host ∈ scannedHosts db := by
  rw [(h.refresh hr).mem_scannedHosts, h.mem_scannedHosts]
  clear h hr
  induction vector generalizing reg with
  | nil => rfl
  | cons s rest ih =>
      rw [refreshed, ih, hosts_cons]
      by_cases hrest : host ∈ hosts rest
      · rw [if_pos hrest, if_pos (List.mem_cons_of_mem _ hrest)]
      · rw [if_neg hrest]
        by_cases hh : host = s.server
        · subst hh
          rw [if_pos (List.mem_cons_self ..), Function.update_self, outcome,
            answers]
          split
          · simp_all
          · simp_all
        · rw [if_neg (by simp [hh, hrest]), Function.update_of_ne hh]

/-- The query loop either comes to its end, having asked everybody, or dies
of one of those it has asked. -/
theorem refresh_cases (views : Views) (cfg : Config) (w : Surroundings)
    (vector : List Server) (r : D × List Server) :
    (∃ e, Client.refresh views cfg w vector r = .error (.exception e) ∧
      ¬Calm cfg w (untilDead cfg w (hosts vector))) ∨
    ∃ db', Client.refresh views cfg w vector r = .ok (db',
        r.2 ++ ((hosts vector).filter (answers w)).map (answered w)) ∧
      Calm cfg w (hosts vector) ∧
      untilDead cfg w (hosts vector) = hosts vector := by
  by_cases hcalm : Calm cfg w (hosts vector)
  · obtain ⟨db', hr⟩ := refresh_ok views hcalm r
    exact .inr ⟨db', hr, hcalm, untilDead_calm hcalm⟩
  · obtain ⟨e, he⟩ := refresh_error views hcalm r
    exact .inl ⟨e, he, fun h => hcalm (untilDead_calm_iff.mp h)⟩

/-- The end of `init`, either way. -/
theorem conclude_cases (cfg : Config) (available : List Server) :
    (∃ e, conclude cfg available = .failed e) ∨
      conclude cfg available = .done available := by
  rw [conclude]
  split
  · exact .inl ⟨_, rfl⟩
  · exact .inr rfl

/-- A run that scans collects registered hosts. -/
theorem Registered.collected {db : D} {reg : Registry Str Field Str}
    (h : Registered views db reg) (changed : Bool) (w : Surroundings) :
    ∃ v, Client.collect views changed w.examined db = .ok v ∧
      (∀ host ∈ hosts v.available ++ hosts v.expired,
        host ∈ scannedHosts db) ∧
      (∀ host ∈ hosts v.available, host ∉ hosts v.expired) ∧
      (changed = true → hosts v.available = [] ∧
        hosts v.existing = scannedHosts db) := by
  obtain ⟨v, hv, hc⟩ := h.collect changed w.examined
  refine ⟨v, hv, ?_, ?_, ?_⟩
  · intro host hm
    rw [List.mem_append, hc.available, hc.expired] at hm
    cases changed with
    | true => simp at hm
    | false =>
        rcases hm with hm | hm
        · exact (List.mem_filter.mp hm).1
        · exact (List.mem_filter.mp hm).1
  · intro host hav hex
    rw [hc.available] at hav
    rw [hc.expired] at hex
    cases changed with
    | true => simp at hav
    | false =>
        have hyoung := (List.mem_filter.mp hav).2
        have hold := (List.mem_filter.mp hex).2
        rw [hold] at hyoung
        cases hyoung
  · intro heq
    subst heq
    exact ⟨hc.available, hc.existing⟩

/-- The transactions of `init` are such. -/
theorem advance_transaction (h : WellFormed views env.servers)
    (run : Run) :
    Transaction env run
      (advance views run.cfg run.surroundings (env, run.phase)).1
      (advance views run.cfg run.surroundings (env, run.phase)).2
      (queried views env run) := by
  obtain ⟨cfg, w, phase⟩ := run
  obtain ⟨reg, hreg⟩ := h
  cases phase with
  | opened => exact .look rfl
  | done available => exact .rest (.inl ⟨_, rfl⟩)
  | failed e => exact .rest (.inr ⟨_, rfl⟩)
  | collected v =>
      have hfrom : ∀ host ∈ hosts (toQuery cfg false v),
          host ∈ hosts v.expired ∨
            host ∈ cfg.servers ∧ host ∉ hosts v.available :=
        fun host hm => mem_register.mp hm
      rcases refresh_cases views cfg w (toQuery cfg false v)
          (env.servers, v.available) with
        ⟨e, hr, hdies⟩ | ⟨db', hr, hcalm, hall⟩
      · have hadv : advance views cfg w (env, .collected v) =
            (env, .failed (.exception e)) := by
          simp only [toQuery, Bool.false_eq_true, if_false] at hr
          simp only [advance, hr]
        rw [hadv]
        exact .abort (.refresh rfl fun host hm =>
          hfrom host (mem_untilDead hm)) hdies
      · have hmem := hreg.mem_refresh hr
        have hadv : advance views cfg w (env, .collected v) =
            (⟨env.misc, db'⟩, conclude cfg (v.available ++
              ((hosts (toQuery cfg false v)).filter (answers w)).map
                (answered w))) := by
          simp only [toQuery, Bool.false_eq_true, if_false] at hr
          simp only [advance, hr]
          rfl
        have hqueried : queried views env ⟨cfg, w, .collected v⟩ =
            hosts (toQuery cfg false v) := hall
        rw [hadv, hqueried]
        refine .refresh rfl hfrom hmem ?_ hcalm
        refine (conclude_cases cfg _).imp_right fun hdone => ⟨_, hdone, ?_⟩
        rw [hosts_append, hosts_map_answered]
  | typed changed =>
      cases changed with
      | false =>
          obtain ⟨v, hv, hfrom, hdisj, -⟩ := hreg.collected false w
          simp only [advance, queried, hv]
          exact .scan rfl hfrom hdisj
      | true =>
          obtain ⟨v, hv, -, -, hnew⟩ := hreg.collected true w
          obtain ⟨hnone, hall⟩ := hnew rfl
          have hasked : ∀ host, host ∈ hosts (toQuery cfg true v) ↔
              host ∈ scannedHosts env.servers ∨ host ∈ cfg.servers := by
            intro host
            rw [toQuery, if_pos rfl, mem_register, hall, hnone]
            simp
          rcases refresh_cases views cfg w (toQuery cfg true v)
              (env.servers, v.available) with
            ⟨e, hr, hdies⟩ | ⟨db', hr, hcalm, hasks⟩
          · have hadv : advance views cfg w (env, .typed true) =
                (env, .failed (.exception e)) := by
              simp only [toQuery, if_true] at hr
              simp only [advance, hv, hr]
            have hqueried : queried views env ⟨cfg, w, .typed true⟩ =
                untilDead cfg w (hosts (toQuery cfg true v)) := by
              simp only [queried, hv]
            rw [hadv, hqueried]
            exact .abort (.switch rfl fun host hm =>
              (hasked host).mp (mem_untilDead hm)) hdies
          · have hc := hreg.classified hv hr
            have hmem := hreg.mem_refresh hr
            have hadv : advance views cfg w (env, .typed true) =
                (⟨Store.put env.misc "compressionType".toList
                  (toDecimal cfg.compressionType.toInt), db'⟩,
                  .done (v.available ++ ((hosts (toQuery cfg true v)).filter
                    (answers w)).map (answered w))) := by
              have hdone := conclude_done cfg hc.nodup
              simp only [toQuery, if_true] at hr hdone
              simp only [advance, hv, hr, hdone, toQuery, if_true]
            have hqueried : queried views env ⟨cfg, w, .typed true⟩ =
                hosts (toQuery cfg true v) := by
              simp only [queried, hv, hasks]
            rw [hadv, hqueried]
            refine .switch rfl (fun host hm => (hasked host).mp hm)
              (fun host => ?_) ?_ ?_ hcalm
            · rw [hmem]
              split
              case isTrue hm => exact (and_iff_right hm).symm
              case isFalse hm =>
                have hout : host ∉ scannedHosts env.servers :=
                  fun hs => hm ((hasked host).mpr (.inl hs))
                exact iff_of_false hout fun hs => hm hs.1
            · rw [storedType, view, Store.get_put_self]
              rfl
            · rw [hosts_append, hosts_map_answered, hnone]
              rfl

/-- A run that is not through has looked at the type, or scanned. -/
theorem Transaction.unfinished {phase : Phase} {asked : List Str}
    (h : Transaction env run env' phase asked)
    (hdone : ∀ available, phase ≠ .done available)
    (hfailed : ∀ e, phase ≠ .failed e) :
    env' = env ∧ asked = [] ∧
      (phase = .typed (compressionChanged run.cfg env) ∨
        run.phase = .typed false ∧ ∃ v, phase = .collected v ∧
          (∀ host ∈ hosts v.available ++ hosts v.expired,
            host ∈ scannedHosts env.servers) ∧
          ∀ host ∈ hosts v.available, host ∉ hosts v.expired) := by
  cases h with
  | look => exact ⟨rfl, rfl, .inl rfl⟩
  | scan htyped hfrom hdisj =>
      exact ⟨rfl, rfl, .inr ⟨htyped, _, rfl, hfrom, hdisj⟩⟩
  | switch => exact absurd rfl (hdone _)
  | refresh _ _ _ hend =>
      rcases hend with ⟨e, he⟩ | ⟨available, hd, -⟩
      · exact absurd he (hfailed e)
      · exact absurd hd (hdone available)
  | abort => exact absurd rfl (hfailed _)
  | rest hend =>
      rcases hend with ⟨available, hd⟩ | ⟨e, he⟩
      · exact absurd hd (hdone available)
      · exact absurd he (hfailed e)

/-- A run that finds the type stored has just looked. -/
theorem Transaction.typed_false {asked : List Str}
    (h : Transaction env run env' (.typed false) asked) :
    env' = env ∧ storedType env = ownType run.cfg := by
  obtain ⟨henv, -, htyped | ⟨-, v, hv, -⟩⟩ :=
    h.unfinished (fun _ he => by cases he) fun _ he => by cases he
  · injection htyped with hsame
    exact ⟨henv, compressionChanged_iff.mp hsame.symm⟩
  · cases hv

/-- A run that has collected has just scanned. -/
theorem Transaction.collected {v : Vectors} {asked : List Str}
    (h : Transaction env run env' (.collected v) asked) :
    run.phase = .typed false ∧ env' = env ∧ asked = [] ∧
      (∀ host ∈ hosts v.available ++ hosts v.expired,
        host ∈ scannedHosts env.servers) ∧
      ∀ host ∈ hosts v.available, host ∉ hosts v.expired := by
  obtain ⟨henv, hnone, htyped | ⟨hphase, v', hv, hscan⟩⟩ :=
    h.unfinished (fun _ he => by cases he) fun _ he => by cases he
  · cases htyped
  · cases hv
    exact ⟨hphase, henv, hnone, hscan⟩

-- =================================================================== steps

/-- All that a step can do. The last argument is what was asked. -/
inductive Moves (s : State D) : Event → State D → List Ask → Prop
  | start (cfg : Config) (w : Surroundings) :
      Moves s (.start cfg w) { s with runs := s.runs ++ [⟨cfg, w, .opened⟩] }
        []
  | advance {i : Nat} {run : Run} {env' : Env D} {phase : Phase}
      {asked : List Str} :
      s.runs[i]? = some run → Transaction s.env run env' phase asked →
      Moves s (.advance i)
        ⟨env', s.runs.set i { run with phase := phase }⟩
        (asked.map (ask i run))

theorem step_moves (hwf : WellFormed views s.env.servers)
    (h : step views s e = some t) : Moves s e t (asks views s e) := by
  cases e with
  | start cfg w =>
      cases h
      exact .start cfg w
  | advance i =>
      simp only [step] at h
      cases hrun : s.runs[i]? with
      | none =>
          rw [hrun] at h
          cases h
      | some run =>
          rw [hrun] at h
          cases h
          simp only [asks, hrun]
          exact .advance hrun (advance_transaction hwf run)

variable {Q : List (State D × Event) → State D → Event → Prop}

/-- The state a run leads to is well-formed. -/
theorem wellFormed_of_traces
    (h : Traces (step views) Q State.start past s) :
    WellFormed views s.env.servers :=
  reachable_wellFormed h.reaches

/-- The last step of a run. -/
theorem moves_of_traces
    (h : Traces (step views) Q State.start ((s, e) :: past) t) :
    Traces (step views) Q State.start past s ∧ Q past s e ∧
      Moves s e t (asks views s e) := by
  cases h with
  | step _ h hq hstep =>
      exact ⟨h, hq, step_moves (wellFormed_of_traces h) hstep⟩

/-- Induction along a run, with what the steps can do. -/
theorem moves_invariant {P : List (State D × Event) → State D → Prop}
    (h : Traces (step views) Q State.start past s) (h₀ : P [] State.start)
    (hstep : ∀ past s e t, P past s → Q past s e →
      Moves s e t (asks views s e) → P ((s, e) :: past) t) : P past s := by
  induction h with
  | start => exact h₀
  | step e h hq hse ih =>
      exact hstep _ _ e _ ih hq (step_moves (wellFormed_of_traces h) hse)

theorem asked_cons (s : State D) (e : Event)
    (past : List (State D × Event)) : asked views ((s, e) :: past) =
      (asks views s e).reverse ++ asked views past :=
  emitted_cons ..

/-- A run that has collected did so before the step, or by it. -/
theorem Moves.collected {asked : List Ask} {v : Vectors}
    (h : Moves s e t asked) (hi : t.runs[i]? = some run)
    (hv : run.phase = .collected v) :
    s.runs[i]? = some run ∨
      (∃ old, s.runs[i]? = some old ∧ old.phase = .typed false ∧
        old.cfg = run.cfg) ∧
      e = .advance i ∧ t.env = s.env ∧ asked = [] ∧
      (∀ host ∈ hosts v.available ++ hosts v.expired,
        host ∈ scannedHosts s.env.servers) ∧
      ∀ host ∈ hosts v.available, host ∉ hosts v.expired := by
  cases h with
  | start cfg w =>
      rcases getElem?_append_one_cases hi with ⟨-, rfl⟩ | hold
      · cases hv
      · exact .inl hold
  | advance cell txn =>
      rcases getElem?_set_cases cell hi with ⟨rfl, rfl⟩ | ⟨-, hold⟩
      · dsimp only at hv
        rw [hv] at txn
        obtain ⟨htyped, henv, hnone, hscan⟩ := txn.collected
        rw [hnone]
        exact .inr ⟨⟨_, cell, htyped, rfl⟩, rfl, henv, rfl, hscan⟩
      · exact .inl hold

-- ============================================================= the last query

/-- A transaction decides the last query of the hosts it asks. -/
theorem lastAsk_asked {asked : List Str} {host : Str} (h : host ∈ asked)
    (i : Nat) (run : Run) (log : List Ask) :
    lastAsk ((asked.map (ask i run)).reverse ++ log) host =
      some (ask i run host) :=
  latest_batch (fun _ => rfl) h log

theorem lastAsk_other {asked : List Str} {host : Str} (h : host ∉ asked)
    (i : Nat) (run : Run) (log : List Ask) :
    lastAsk ((asked.map (ask i run)).reverse ++ log) host =
      lastAsk log host :=
  latest_batch_other (fun _ => rfl) h log

/-- The last query of a host was for a compression type. -/
def AskedFor (log : List Ask) (type host : Str) : Prop :=
  ∃ a, lastAsk log host = some a ∧ ownType a.cfg = type

/-- Queries for the same type change nothing. -/
theorem AskedFor.batch {type host : Str} (h : AskedFor log type host)
    (hrun : ownType run.cfg = type) (i : Nat) (asked : List Str) :
    AskedFor ((asked.map (ask i run)).reverse ++ log) type host := by
  by_cases hin : host ∈ asked
  · exact ⟨_, lastAsk_asked hin .., hrun⟩
  · rw [AskedFor, lastAsk_other hin]
    exact h

/-- The last query of every registered host was for the stored compression
type. -/
def Recorded (log : List Ask) (env : Env D) : Prop :=
  ∀ host ∈ scannedHosts env.servers, AskedFor log (storedType env) host

/-- A transaction keeps that, unless it queries for a compression type that
is not the stored one and does not become it. -/
theorem Recorded.transaction {phase : Phase} {asked : List Str}
    (h : Recorded log env) (txn : Transaction env run env' phase asked)
    (hrefresh : ∀ v, run.phase = .collected v →
      storedType env = ownType run.cfg)
    (habort : run.phase = .typed true →
      ¬Calm run.cfg run.surroundings asked →
      storedType env = ownType run.cfg) (i : Nat) :
    Recorded ((asked.map (ask i run)).reverse ++ log) env' := by
  cases txn with
  | look => exact h
  | scan => exact h
  | rest => exact h
  | switch _ _ hreg htype _ _ =>
      intro host hm
      exact ⟨_, lastAsk_asked ((hreg host).mp hm).1 .., htype.symm⟩
  | refresh hv _ hreg _ _ =>
      intro host hm
      have hown := hrefresh _ hv
      have hm := (hreg host).mp hm
      by_cases hin : host ∈ asked
      · exact ⟨_, lastAsk_asked hin .., hown.symm⟩
      · rw [if_neg hin] at hm
        exact (h host hm).batch hown.symm i asked
  | abort hdue hdies =>
      have hown : storedType env = ownType run.cfg := by
        cases hdue with
        | switch hphase => exact habort hphase hdies
        | refresh hv => exact hrefresh _ hv
      exact fun host hm => (h host hm).batch hown.symm i asked

theorem scannedHosts_empty : scannedHosts (Store.empty : D) = [] := by
  refine List.eq_nil_iff_forall_not_mem.mpr fun host hm => ?_
  have hreg : Registered littleEndian (Store.empty : D) fun _ => none :=
    .empty
  cases hreg.mem_scannedHosts.mp hm

theorem recorded_start : Recorded [] (State.start : State D).env := by
  intro host hm
  rw [State.start, scannedHosts_empty] at hm
  cases hm

-- ============================================================= candidates

/-- The last step is the one by which process `i` fills its set of
candidates. -/
def Fills (past : List (State D × Event)) (s : State D) (i : Nat)
    (run : Run) (available : List Server) : Prop :=
  ∃ u older before, past = (u, .advance i) :: older ∧
    u.runs[i]? = some before ∧ before.phase ≠ run.phase ∧
    s.runs[i]? = some run ∧ run.phase = .done available

/-- The executable form. -/
def fillsWith (past : List (State D × Event)) (s : State D) (i : Nat)
    (available : List Server) : Bool :=
  match past with
  | (u, .advance j) :: _ =>
      decide (j = i) &&
        (u.runs[i]?.any fun run => decide (run.phase ≠ .done available)) &&
        s.runs[i]?.any fun run => decide (run.phase = .done available)
  | _ => false

omit [Store D Str Str] in
theorem Fills.of_fillsWith {available : List Server}
    (h : fillsWith past s i available = true) :
    ∃ run, s.runs[i]? = some run ∧ Fills past s i run available := by
  unfold fillsWith at h
  split at h
  case h_2 => cases h
  case h_1 u j older =>
    simp only [Bool.and_eq_true, decide_eq_true_iff,
      Option.any_eq_true] at h
    obtain ⟨⟨rfl, before, hbefore, hne⟩, run, hrun, hdone⟩ := h
    exact ⟨run, hrun, u, older, before, rfl, hbefore, hdone ▸ hne, hrun,
      hdone⟩

theorem mem_candidates {available : List Server} {host : Str} :
    host ∈ hosts (candidates available).entries ↔
      host ∈ hosts available :=
  ((candidates_perm available).map Server.server).mem_iff

/-- A candidate has been queried, or taken over from the scan. -/
theorem Transaction.candidate {available : List Server} {asked : List Str}
    {host : Str} (h : Transaction env run env' (.done available) asked)
    (hne : run.phase ≠ .done available) (hm : host ∈ hosts available) :
    (host ∈ asked ∧ answers run.surroundings host = true ∧
      (host ∈ scannedHosts env.servers ∨ host ∈ run.cfg.servers ∨
        ∃ v, run.phase = .collected v ∧ host ∈ hosts v.expired)) ∨
      ∃ v, run.phase = .collected v ∧ host ∈ hosts v.available ∧
        (host ∈ asked → host ∈ hosts v.expired) := by
  generalize hphase : Phase.done available = phase at h
  cases h with
  | look => cases hphase
  | scan => cases hphase
  | rest => exact absurd hphase.symm hne
  | abort => cases hphase
  | switch _ hfrom _ _ havail =>
      cases hphase
      rw [havail] at hm
      obtain ⟨hin, hans⟩ := List.mem_filter.mp hm
      exact .inl ⟨hin, hans, (hfrom host hin).imp_right .inl⟩
  | refresh hv hfrom _ hend =>
      rcases hend with ⟨e, rfl⟩ | ⟨available', rfl, havail⟩
      · cases hphase
      · cases hphase
        rw [havail, List.mem_append] at hm
        rcases hm with hkept | hm
        · exact .inr ⟨_, hv, hkept, fun hin =>
            (hfrom host hin).resolve_right fun hconf => hconf.2 hkept⟩
        · obtain ⟨hin, hans⟩ := List.mem_filter.mp hm
          refine .inl ⟨hin, hans, .inr ?_⟩
          rcases hfrom host hin with hex | hconf
          · exact .inr ⟨_, hv, hex⟩
          · exact .inl hconf.1

/-- The step that fills the set. -/
theorem Fills.last {available : List Server}
    (h : Traces (step views) Q State.start past s)
    (hf : Fills past s i run available) :
    ∃ u older before hosts, past = (u, .advance i) :: older ∧
      Traces (step views) Q State.start older u ∧
      Q older u (.advance i) ∧ u.runs[i]? = some before ∧
      before.cfg = run.cfg ∧ before.phase ≠ .done available ∧
      Transaction u.env before s.env (.done available) hosts ∧
      asked views past =
        (hosts.map (ask i before)).reverse ++ asked views older := by
  obtain ⟨u, older, before, rfl, hbefore, hne, hi, hdone⟩ := hf
  obtain ⟨hold, hq, hmoves⟩ := moves_of_traces h
  rw [hdone] at hne
  rw [asked_cons]
  generalize hasks : asks views u (.advance i) = asks at hmoves
  cases hmoves with
  | advance cell txn =>
      rw [hbefore] at cell
      cases cell
      rcases getElem?_set_cases hbefore hi with ⟨-, rfl⟩ | ⟨hij, -⟩
      · cases hdone
        exact ⟨u, older, _, _, rfl, hold, hq, hbefore, rfl, hne, txn, rfl⟩
      · exact absurd rfl hij

end Distplusplus.Client
