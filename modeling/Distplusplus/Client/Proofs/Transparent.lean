/-
What the cache does to the ranking of servers.

A load reaches the candidates by two routes: out of the answer, as it is, or
out of a record, which `updateServer` capped at 100. `init_loads` says which
route each candidate took, and `Remembers` what the records of a run of runs
say about hosts that always answer the same. So the candidates of any run
are those of one that queries everybody, but for the loads of hosts the run
takes over (`Remembers.mem_available`).

- `cache_transparent_iff`: no sequence of runs can tell the cache from
  querying everybody exactly when no configured host reports a load above
  the cap, and none fails in a way `init` dies of.
- `overloaded`: one that does, and is ranked anew by the second run.
-/
import Distplusplus.Client.Proofs.Classify

namespace Distplusplus.Client

open Lib Common

variable {D : Type} [Store D Str Str] {views : Views}
variable {db : D} {env env' : Env D} {reg : Registry Str Field Str}
variable {cfg : Config} {w : Surroundings} {available : List Server}
variable {logs : Bool} {servers : List Str}
variable {replies : Str → ReceivedStatus × QueryAnswer}

-- ===================================================================== loads

/-- What a host says, if it does. -/
def said (replies : Str → ReceivedStatus × QueryAnswer) (host : Str) :
    Option QueryAnswer :=
  if (replies host).1.code = 0 then some (replies host).2 else none

theorem said_eq_some {host : Str} {a : QueryAnswer} :
    said w.query host = some a ↔
      answers w host = true ∧ (w.query host).2 = a := by
  rw [said, answers, decide_eq_true_iff]
  split
  case isTrue hok => simp [hok]
  case isFalse hok => simp [hok]

/-- The load of a host is the one in its record. -/
def Stored (views : Views) (db : D) (s : Server) : Prop :=
  views.u32.fromSv (view db (key s.server .currentLoad)) =
    some s.currentLoad

/-- The cursor loop takes loads out of the records. -/
theorem Registered.stored (h : Registered views db reg) {changed : Bool}
    {examined : Str → Int64} {s : Server}
    (hs : s ∈ (collected views changed examined db
      (scannedHosts db)).available) : Stored views db s := by
  cases changed with
  | true => cases hs
  | false =>
      obtain ⟨host, hhost, rfl⟩ := List.mem_map.mp hs
      obtain ⟨e, he, rfl⟩ := List.mem_map.mp (List.mem_filter.mp hhost).1
      obtain ⟨hscan, hname⟩ := List.mem_filter.mp he
      obtain ⟨⟨load, hload⟩, -⟩ := h.readable hscan hname
      rw [Stored, storedServer, hload, Option.getD_some]

/-- The candidates are what the scan has found available, and who answers of
the rest. -/
theorem Registered.init_available (h : Registered views env.servers reg)
    {v : Vectors}
    (hv : Client.collect views (compressionChanged cfg env) w.examined
      env.servers = .ok v)
    (hinit : Client.init views cfg w env = (env', .done available)) :
    available = v.available ++
      ((hosts (toQuery cfg (compressionChanged cfg env) v)).filter
        (answers w)).map (answered w) := by
  by_cases hcalm : Calm cfg w
      (hosts (toQuery cfg (compressionChanged cfg env) v))
  · obtain ⟨db', hr⟩ := refresh_ok views hcalm (env.servers, v.available)
    rw [init_eq hv hr (h.classified hv hr).nodup] at hinit
    cases hinit
    rfl
  · obtain ⟨e, he⟩ := refresh_error views hcalm (env.servers, v.available)
    rw [init_error hv he] at hinit
    cases hinit

/-- Where the load of a candidate comes from: the record of a host the run
takes over, or the answer of one it does not. -/
theorem Registered.init_loads (h : Registered views env.servers reg)
    (hinit : Client.init views cfg w env = (env', .done available))
    {s : Server} (hs : s ∈ available) :
    (isFresh views (compressionChanged cfg env) w env.servers s.server =
        true ∧ Stored views env.servers s) ∨
      (isFresh views (compressionChanged cfg env) w env.servers s.server =
        false ∧ s = answered w s.server) := by
  have hv := h.collect_eq (compressionChanged cfg env) w.examined
  obtain ⟨v, hv', hnd, hfresh, -⟩ :=
    h.sorted (compressionChanged cfg env) cfg w
  rw [hv] at hv'
  cases hv'
  have hnd := (List.nodup_append.mp hnd).2.2
  have hs := h.init_available hv hinit ▸ hs
  rcases List.mem_append.mp hs with hs | hs
  · exact .inl ⟨(hfresh _).mp (List.mem_map_of_mem hs), h.stored hs⟩
  · obtain ⟨host, hhost, rfl⟩ := List.mem_map.mp hs
    have hvector := (List.mem_filter.mp hhost).1
    refine .inr ⟨?_, rfl⟩
    rw [← Bool.not_eq_true, ← hfresh]
    exact fun hin => hnd _ hvector _ hin rfl

-- ================================================================ one run

/-- A run among others with the same servers, which always reply alike, and
the same log filter. -/
structure Fits (logs : Bool) (servers : List Str)
    (replies : Str → ReceivedStatus × QueryAnswer)
    (run : Config × Surroundings) : Prop where
  logs : run.1.logsWarnings = logs
  servers : run.1.servers = servers
  query : run.2.query = replies

/-- The records are of configured hosts, with the loads they report. -/
def Remembers (views : Views) (servers : List Str)
    (replies : Str → ReceivedStatus × QueryAnswer)
    (reg : Registry Str Field Str) : Prop :=
  ∀ host r, reg host = some r → host ∈ servers ∧ ∃ a,
    said replies host = some a ∧
      r .currentLoad = views.u32.toSv (min a.currentLoad 100)

/-- So a run knows the configured hosts and no others. -/
theorem Remembers.isKnown_iff (hrem : Remembers views servers replies reg)
    (h : Registered views db reg) (hfit : Fits logs servers replies (cfg, w))
    {host : Str} : isKnown cfg db host = true ↔ host ∈ servers := by
  rw [isKnown, Bool.or_eq_true, decide_eq_true_iff, decide_eq_true_iff,
    h.mem_scannedHosts, hfit.servers]
  constructor
  · intro hknown
    rcases hknown with hsome | hconf
    · obtain ⟨r, hr⟩ := Option.isSome_iff_exists.mp hsome
      exact (hrem host r hr).1
    · exact hconf
  · exact .inr

/-- A run keeps it so. -/
theorem Remembers.init (hrem : Remembers views servers replies reg)
    (h : Registered views env.servers reg)
    (hfit : Fits logs servers replies (cfg, w)) :
    ∃ reg', Registered views (Client.init views cfg w env).1.servers reg' ∧
      Remembers views servers replies reg' := by
  rcases h.init_cases cfg w with
    ⟨-, e, he⟩ | ⟨-, env', available, hinit, hclass⟩
  · rw [he]
    exact ⟨reg, h, hrem⟩
  · rw [hinit]
    refine ⟨_, hclass.registered, fun host r hr => ?_⟩
    split at hr
    case isFalse => exact hrem host r hr
    case isTrue hknown =>
      rw [Bool.and_eq_true, hrem.isKnown_iff h hfit] at hknown
      rw [outcome] at hr
      split at hr
      case isFalse => cases hr
      case isTrue hok =>
        cases hr
        refine ⟨hknown.1, (w.query host).2, ?_, rfl⟩
        rw [← hfit.query]
        exact said_eq_some.mpr ⟨decide_eq_true hok, rfl⟩

/-- It returns if none of the hosts fails in a way `init` dies of. -/
theorem Remembers.returns (hrem : Remembers views servers replies reg)
    (h : Registered views env.servers reg)
    (hfit : Fits logs servers replies (cfg, w))
    (hnamed : ∀ host ∈ servers, Loggable logs (replies host).1) :
    ∃ env' available,
      Client.init views cfg w env = (env', .done available) := by
  rcases h.init_cases cfg w with
    ⟨⟨host, hknown, -, hdies⟩, -⟩ | ⟨-, env', available, hinit, -⟩
  · have hin := (hrem.isKnown_iff h hfit).mp hknown
    have hlogs : cfg.logsWarnings = logs := hfit.logs
    have hquery : w.query = replies := hfit.query
    rw [hlogs, hquery] at hdies
    exact absurd (hnamed host hin) hdies
  · exact ⟨env', available, hinit⟩

/-- The load a run ranks a host by. -/
def ranked (views : Views) (cfg : Config) (w : Surroundings) (env : Env D)
    (host : Str) (a : QueryAnswer) : UInt32 :=
  if isFresh views (compressionChanged cfg env) w env.servers host then
    min a.currentLoad 100
  else a.currentLoad

/-- A candidate is a configured host that answers, ranked by one route or
the other. -/
theorem Remembers.ranked (hrem : Remembers views servers replies reg)
    (h : Registered views env.servers reg)
    (hfit : Fits logs servers replies (cfg, w))
    (hinit : Client.init views cfg w env = (env', .done available))
    {s : Server} (hs : s ∈ available) : s.server ∈ servers ∧ ∃ a,
      said replies s.server = some a ∧
        s.currentLoad = Client.ranked views cfg w env s.server a := by
  rcases h.init_loads hinit hs with ⟨hfresh, hload⟩ | ⟨hfresh, heq⟩
  · have hscan : s.server ∈ scannedHosts env.servers := by
      simp only [isFresh, Bool.and_eq_true, decide_eq_true_iff] at hfresh
      exact hfresh.1.2
    obtain ⟨r, hr⟩ := Option.isSome_iff_exists.mp
      (h.mem_scannedHosts.mp hscan)
    obtain ⟨hin, a, ha, hr'⟩ := hrem _ r hr
    refine ⟨hin, a, ha, ?_⟩
    rw [Stored, view, h.represents.get, hr, Option.map_some,
      Option.getD_some, hr', views.u32.fromSv_toSv] at hload
    rw [Client.ranked, if_pos hfresh]
    exact (Option.some.inj hload).symm
  · have hmem :=
      ((h.init_done hinit).available s.server).mp (List.mem_map_of_mem hs)
    rw [hfresh] at hmem
    obtain ⟨hknown, hans⟩ := hmem.resolve_left Bool.false_ne_true
    rw [hrem.isKnown_iff h hfit] at hknown
    refine ⟨hknown, (w.query s.server).2, ?_, ?_⟩
    · rw [← hfit.query]
      exact said_eq_some.mpr ⟨hans, rfl⟩
    · rw [Client.ranked, hfresh, if_neg Bool.false_ne_true]
      exact congrArg Server.currentLoad heq

/-- The candidates are the configured hosts that answer. -/
theorem Remembers.mem_available (hrem : Remembers views servers replies reg)
    (h : Registered views env.servers reg)
    (hfit : Fits logs servers replies (cfg, w))
    (hinit : Client.init views cfg w env = (env', .done available))
    (s : Server) : s ∈ available ↔ s.server ∈ servers ∧ ∃ a,
      said replies s.server = some a ∧
        s.currentLoad = Client.ranked views cfg w env s.server a := by
  refine ⟨hrem.ranked h hfit hinit, fun hreply => ?_⟩
  obtain ⟨hin, a, ha, hload⟩ := hreply
  have hans : said w.query s.server = some a := by
    have hquery : w.query = replies := hfit.query
    rw [hquery]
    exact ha
  have hhost : s.server ∈ hosts available := by
    rw [(h.init_done hinit).available]
    exact .inr ⟨(hrem.isKnown_iff h hfit).mpr hin, (said_eq_some.mp hans).1⟩
  -- the entry of that host has the load there is only one of
  obtain ⟨s', hs', heq⟩ := List.mem_map.mp hhost
  obtain ⟨-, a', ha', hload'⟩ := hrem.ranked h hfit hinit hs'
  rw [heq, ha] at ha'
  cases ha'
  rw [heq, ← hload] at hload'
  have hsame : s' = s := by
    cases s
    cases s'
    rw [Server.mk.injEq]
    exact ⟨hload', heq⟩
  rw [← hsame]
  exact hs'

-- ========================================================= querying everybody

/-- The candidates of a run that queries every configured host. -/
def queriesAll (views : Views) (cfg : Config) (w : Surroundings) (db : D) :
    Except InitError (Bag Server.load) :=
  match refresh views cfg w (register [] cfg.servers []) (db, []) with
  | .error e => .error e
  | .ok r => .ok (candidates r.2)

/-- They are the configured hosts that answer, with the loads they report,
each once. -/
theorem queriesAll_spec (views : Views) (db : D)
    (hfit : Fits logs servers replies (cfg, w))
    (hnamed : ∀ host ∈ servers, Loggable logs (replies host).1) :
    ∃ all, queriesAll views cfg w db = .ok all ∧
      (hosts all.entries).Nodup ∧
      ∀ s, s ∈ all.entries ↔
        s.server ∈ servers ∧ ∃ a, said replies s.server = some a ∧
          s.currentLoad = a.currentLoad := by
  have hlogs : cfg.logsWarnings = logs := hfit.logs
  have hservers : cfg.servers = servers := hfit.servers
  have hquery : w.query = replies := hfit.query
  have hvector : ∀ host, host ∈ hosts (register [] cfg.servers []) ↔
      host ∈ servers := by
    intro host
    rw [mem_register, hservers]
    simp
  have hcalm : Calm cfg w (hosts (register [] cfg.servers [])) := by
    intro host hm
    rw [hlogs, hquery]
    exact hnamed host ((hvector host).mp hm)
  obtain ⟨db', hr⟩ := refresh_ok views hcalm (db, [])
  rw [List.nil_append] at hr
  have hperm := candidates_perm (((hosts (register [] cfg.servers [])).filter
    (answers w)).map (answered w))
  have hall : queriesAll views cfg w db = .ok (candidates (((hosts (register
      [] cfg.servers [])).filter (answers w)).map (answered w))) := by
    simp only [queriesAll, hr]
  refine ⟨_, hall, ?_, fun s => ?_⟩
  · apply (hperm.map Server.server).nodup_iff.mpr
    rw [← hosts, hosts_map_answered]
    have hnil : (hosts [] ++ hosts []).Nodup := List.nodup_nil
    have hnd := register_nodup hnil cfg.servers
    exact ((List.nodup_append.mp hnd).1).filter _
  · rw [hperm.mem_iff, List.mem_map]
    simp only [List.mem_filter, hvector, ← hquery, said_eq_some]
    constructor
    · intro hentry
      obtain ⟨host, ⟨hin, hans⟩, heq⟩ := hentry
      cases heq
      exact ⟨hin, _, ⟨hans, rfl⟩, rfl⟩
    · intro hreply
      obtain ⟨hin, a, ⟨hans, ha⟩, hload⟩ := hreply
      refine ⟨s.server, ⟨hin, hans⟩, ?_⟩
      rw [answered, ha, ← hload]

/-- A load is ranked as it is unless it is capped. -/
theorem min_load_eq {load : UInt32} :
    min load 100 = load ↔ load ≤ 100 := by
  show (if load ≤ 100 then load else 100) = load ↔ load ≤ 100
  split
  case isTrue hle => simp [hle]
  case isFalse hlt =>
    refine iff_of_false (fun heq => hlt ?_) hlt
    rw [← heq]
    exact UInt32.le_refl _

/-- A run has those candidates unless it takes a capped load over. -/
theorem Remembers.perm_iff (hrem : Remembers views servers replies reg)
    (h : Registered views env.servers reg)
    (hfit : Fits logs servers replies (cfg, w))
    (hnamed : ∀ host ∈ servers, Loggable logs (replies host).1)
    (hinit : Client.init views cfg w env = (env', .done available))
    {all : Bag Server.load}
    (hquery : queriesAll views cfg w env.servers = .ok all) :
    (candidates available).entries.Perm all.entries ↔
      ∀ host ∈ servers, ∀ a, said replies host = some a →
        isFresh views (compressionChanged cfg env) w env.servers host =
          true → a.currentLoad ≤ 100 := by
  have hmem := hrem.mem_available h hfit hinit
  obtain ⟨_, hquery', hnd, hall⟩ :=
    queriesAll_spec views env.servers hfit hnamed
  rw [hquery] at hquery'
  cases hquery'
  have hcand := candidates_perm available
  constructor
  · intro hperm host hin a ha hfresh
    have hs := (hall ⟨a.currentLoad, host⟩).mpr ⟨hin, a, ha, rfl⟩
    rw [← hperm.mem_iff, hcand.mem_iff, hmem] at hs
    obtain ⟨-, a', ha', hload⟩ := hs
    rw [ha] at ha'
    cases ha'
    rw [Client.ranked, if_pos hfresh] at hload
    exact min_load_eq.mp hload.symm
  · intro hcap
    refine hcand.trans ((List.perm_ext_iff_of_nodup
      (h.init_done hinit).nodup.of_map hnd.of_map).mpr fun s => ?_)
    rw [hmem, hall]
    refine and_congr_right fun hin => exists_congr fun a =>
      and_congr_right fun ha => ?_
    rw [Client.ranked]
    split
    case isTrue hfresh => rw [min_load_eq.mpr (hcap _ hin a ha hfresh)]
    case isFalse => rfl

-- ============================================================ a run of runs

/-- What runs one after the other leave behind. -/
def afterRuns (views : Views) (runs : List (Config × Surroundings)) :
    Env D :=
  runs.foldl (fun env run => (init views run.1 run.2 env).1) State.start.env

/-- The servers configured, what they reply and the log filter stay the same,
the clock does not go back, and all else may change from run to run. -/
structure Steady (logs : Bool) (servers : List Str)
    (replies : Str → ReceivedStatus × QueryAnswer)
    (runs : List (Config × Surroundings)) : Prop where
  fits : ∀ run ∈ runs, Fits logs servers replies run
  during : ∀ run ∈ runs, ∀ host host',
    run.2.examined host ≤ run.2.written host'
  between : runs.Pairwise fun run run' => ∀ host host',
    run.2.written host ≤ run'.2.examined host'

/-- After any of them the records are those of the servers. -/
theorem afterRuns_remembers (D : Type) [Store D Str Str] (views : Views)
    {runs : List (Config × Surroundings)}
    (h : ∀ run ∈ runs, Fits logs servers replies run) :
    ∃ reg, Registered views (afterRuns views runs : Env D).servers reg ∧
      Remembers views servers replies reg := by
  refine List.foldlRecOn (motive := fun env : Env D =>
    ∃ reg, Registered views env.servers reg ∧
      Remembers views servers replies reg) runs _ ?_ ?_
  · exact ⟨_, Registered.empty, fun _ _ h => by cases h⟩
  · intro env ⟨reg, hreg, hrem⟩ run hrun
    exact hrem.init hreg (h run hrun)

/-- Every run of every sequence has the candidates of one that queries
every configured host. -/
def Transparent (D : Type) [Store D Str Str] (views : Views) (logs : Bool)
    (servers : List Str) (replies : Str → ReceivedStatus × QueryAnswer) :
    Prop :=
  ∀ (before : List (Config × Surroundings)) cfg w,
    Steady logs servers replies (before ++ [(cfg, w)]) →
    ∃ env' available all,
      init views cfg w (afterRuns views before : Env D) =
        (env', .done available) ∧
      queriesAll views cfg w (afterRuns views before : Env D).servers =
        .ok all ∧
      (candidates available).entries.Perm all.entries

/-- A run that returns leaves its compression type behind. -/
theorem compressionChanged_init (h : Registered views env.servers reg)
    (hinit : init views cfg w env = (env', .done available)) :
    compressionChanged cfg env' = false := by
  obtain ⟨v, hv, -⟩ := h.sorted (compressionChanged cfg env) cfg w
  cases hr : refresh views cfg w
      (toQuery cfg (compressionChanged cfg env) v)
      (env.servers, v.available) with
  | error e =>
      rw [init_error hv hr] at hinit
      cases hinit
  | ok r =>
      rw [init_eq hv hr (h.classified hv hr).nodup] at hinit
      cases hinit
      cases hchanged : compressionChanged cfg env with
      | true =>
          rw [if_pos rfl, compressionChanged, view, Store.get_put_self]
          exact decide_eq_false fun hne => hne rfl
      | false =>
          rw [if_neg Bool.false_ne_true]
          exact hchanged

-- ============================================================ the theorem

/-- A run at time 0 with the replies given. -/
def midnight (logs : Bool) (servers : List Str)
    (replies : Str → ReceivedStatus × QueryAnswer) : Config × Surroundings :=
  (⟨servers, 1, "gcc".toList, logs, true⟩,
    { examined := fun _ => 0
      query := replies
      written := fun _ => 0
      page := fun _ => [] })

theorem midnight_fits :
    Fits logs servers replies (midnight logs servers replies) :=
  ⟨rfl, rfl, rfl⟩

/-- It can be had twice. -/
theorem midnight_steady : Steady logs servers replies
    ([midnight logs servers replies] ++ [midnight logs servers replies]) := by
  refine ⟨fun run hrun => ?_, fun run hrun host host' => ?_,
    List.pairwise_pair.mpr fun host host' => Int64.le_refl 0⟩
  all_goals
    rw [List.mem_append, or_self, List.mem_singleton] at hrun
    rw [hrun]
  · exact midnight_fits
  · exact Int64.le_refl 0

/-- And once. -/
theorem midnight_first : Steady logs servers replies
    ([] ++ [midnight logs servers replies]) := by
  refine ⟨fun run hrun => ?_, fun run hrun host host' => ?_,
    List.pairwise_singleton ..⟩
  all_goals
    rw [List.nil_append, List.mem_singleton] at hrun
    rw [hrun]
  · exact midnight_fits
  · exact Int64.le_refl 0

/-- A first run takes nobody over. -/
theorem not_isFresh_start {host : Str} (changed : Bool) :
    isFresh views changed w (State.start.env : Env D).servers host =
      false := by
  have hempty : Registered views (State.start.env : Env D).servers _ :=
    Registered.empty
  have hnobody : host ∉ scannedHosts (State.start.env : Env D).servers := by
    rw [hempty.mem_scannedHosts]
    exact Bool.false_ne_true
  rw [isFresh, decide_eq_false hnobody, Bool.and_false, Bool.false_and]

/-- The second run takes over who replied to the first. -/
theorem midnight_fresh {host : Str} {a : QueryAnswer} (hin : host ∈ servers)
    (ha : said replies host = some a)
    (hinit : init views (midnight logs servers replies).1
      (midnight logs servers replies).2 State.start.env =
        (env, .done available))
    (h : Registered views env.servers reg) :
    isFresh views (compressionChanged (midnight logs servers replies).1 env)
      (midnight logs servers replies).2 env.servers host = true := by
  have hempty : Registered views (State.start.env : Env D).servers _ :=
    Registered.empty
  have hreg := (hempty.init_done hinit).registered
  have hknown : isKnown (midnight logs servers replies).1
      (State.start.env : Env D).servers host = true := by
    rw [isKnown, Bool.or_eq_true, decide_eq_true_iff, decide_eq_true_iff]
    exact .inr hin
  have hok := of_decide_eq_true (said_eq_some.mp
    (show said (midnight logs servers replies).2.query host = some a
      from ha)).1
  have hage := hreg.represents.get host .age
  rw [hknown, not_isFresh_start, Bool.not_false, Bool.and_true, if_pos rfl,
    outcome, if_pos hok, Option.map_some] at hage
  have hyoung : isExpired 0 (mtime 0) = false := by decide
  rw [h.foundFresh]
  exact ⟨compressionChanged_init hempty hinit, _, mtime 0, hage,
    views.u64.fromSv_toSv _, hyoung⟩

/-- No sequence of runs shows a difference between the cache and querying
everybody exactly when no configured host reports a load above the cap, or
fails in a way `init` dies of. -/
theorem cache_transparent_iff (D : Type) [Store D Str Str] (views : Views)
    (logs : Bool) (servers : List Str)
    (replies : Str → ReceivedStatus × QueryAnswer) :
    Transparent D views logs servers replies ↔
      ∀ host ∈ servers, Loggable logs (replies host).1 ∧
        ((replies host).1.code = 0 → (replies host).2.currentLoad ≤ 100) := by
  constructor
  · intro h
    have hempty : Registered views (State.start.env : Env D).servers _ :=
      Registered.empty
    have hnobody : Remembers views servers replies fun _ => none :=
      fun _ _ hr => by cases hr
    obtain ⟨env', available, -, hinit, -, -⟩ := h _ _ _ midnight_first
    have hnamed : ∀ host ∈ servers, Loggable logs (replies host).1 := by
      rcases hempty.init_cases (midnight logs servers replies).1
          (midnight logs servers replies).2 with
        ⟨-, e, he⟩ | ⟨hcalm, -⟩
      · cases he.symm.trans hinit
      · exact fun host hin => hcalm host
          ((hnobody.isKnown_iff hempty midnight_fits).mpr hin)
          (not_isFresh_start _)
    intro host hin
    refine ⟨hnamed host hin, fun hok => ?_⟩
    obtain ⟨_, again, all, hsecond, hquery, hperm⟩ := h _ _ _ midnight_steady
    have henv : afterRuns views [midnight logs servers replies] = env' :=
      congrArg Prod.fst hinit
    rw [henv] at hsecond hquery
    have hfit : Fits logs servers replies (midnight logs servers replies) :=
      midnight_fits
    obtain ⟨reg, hreg, hrem⟩ := hnobody.init hempty hfit
    have hreg : Registered views env'.servers reg := henv ▸ hreg
    have hsaid : said replies host = some (replies host).2 := by
      rw [said, if_pos hok]
    exact (hrem.perm_iff hreg midnight_fits hnamed hsecond hquery).mp hperm
      host hin _ hsaid (midnight_fresh hin hsaid hinit hreg)
  · intro hall before cfg w hsteady
    have hnamed := fun host hin => (hall host hin).1
    have hfit : Fits logs servers replies (cfg, w) :=
      hsteady.fits _ (List.mem_append_right _ (List.mem_singleton_self _))
    obtain ⟨reg, hreg, hrem⟩ := afterRuns_remembers D views
      fun run hrun => hsteady.fits run (List.mem_append_left _ hrun)
    obtain ⟨env', available, hinit⟩ := hrem.returns hreg hfit hnamed
    obtain ⟨all, hquery, -⟩ := queriesAll_spec views
      (afterRuns views before : Env D).servers hfit hnamed
    refine ⟨env', available, all, hinit, hquery,
      (hrem.perm_iff hreg hfit hnamed hinit hquery).mpr
        fun host hin a ha _ => ?_⟩
    rw [said] at ha
    split at ha
    case isFalse => cases ha
    case isTrue hok =>
      cases ha
      exact (hall host hin).2 hok

/-- A host that reports a load of 150. -/
def overload (host : Str) : ReceivedStatus × QueryAnswer :=
  (if host = "h".toList then ⟨0, [], []⟩ else ⟨14, [], []⟩,
    ⟨true, true, 150, 8⟩)

/-- The run after the first has it with a load of 100. -/
theorem overloaded :
    let run := midnight true ["h".toList] overload
    let first : Env (Std.ExtTreeMap Str Str compare) := State.start.env
    let second := (init littleEndian run.1 run.2 first).1
    (init littleEndian run.1 run.2 first).2 =
        .done [⟨150, "h".toList⟩] ∧
      (init littleEndian run.1 run.2 second).2 =
        .done [⟨100, "h".toList⟩] ∧
      ¬Transparent (Std.ExtTreeMap Str Str compare) littleEndian true
        ["h".toList] overload := by
  refine ⟨rfl, rfl, fun h => ?_⟩
  obtain ⟨env', available, all, hinit, hquery, hperm⟩ := h _ _ _ midnight_steady
  have havailable : Phase.done [⟨100, "h".toList⟩] = .done available :=
    congrArg Prod.snd hinit
  cases havailable
  have hmem := hperm.mem_iff.mp (List.mem_singleton_self _)
  cases hquery
  revert hmem
  decide

end Distplusplus.Client
