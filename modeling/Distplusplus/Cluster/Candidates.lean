/-
The cache of servers, with the servers it is about.

A client learns what it knows of a server from replies to queries, and a
reply with `OK` is one that `Query` gave. So the servers a client tries are
such that have answered, and a server answers only for compilers that it
has: `candidates_welcome`. But the records are shared by every client of a
user, and who takes one over does not ask for itself: with two compilers a
client can try a server that will refuse its job (`unwelcome_candidate`).

The loads are never above the cap of the records, as `Query` has one of its
own. So whatever the clients do, the cache does not show
(`cache_transparent_served`).
-/
import Distplusplus.Client.Proofs.Origin
import Distplusplus.Client.Proofs.Transparent
import Distplusplus.Server.Proofs.Foretold

namespace Distplusplus.Cluster

open Lib Common Client

variable {D : Type} [Store D Str Str] {views : Views}
variable {past : List (Client.State D × Client.Event)} {s : Client.State D}
variable {Q : List (Client.State D × Client.Event) → Client.State D →
  Client.Event → Prop}
variable {i : Nat} {run : Run} {available : List Client.Server}

-- ================================================================= the nodes

/-- A server as queries and jobs find it. -/
structure Node where
  host : Server.Host
  jobsMax : UInt64

/-- A reply with `OK` comes from the server at the address, whatever its
load. -/
def Vouched (nodes : Str → Option Node) (cfg : Client.Config) (address : Str)
    (reply : ReceivedStatus × QueryAnswer) : Prop :=
  reply.1.code = 0 → ∃ node loadavg status, nodes address = some node ∧
    Server.query node.host node.jobsMax loadavg
      ⟨cfg.compilerName, cfg.compressionType⟩ = .ok (status, reply.2) ∧
    reply.1 = received status

/-- It is an `OK` of the server's. -/
theorem Vouched.query {nodes : Str → Option Node} {cfg : Client.Config}
    {address : Str} {reply : ReceivedStatus × QueryAnswer}
    (h : Vouched nodes cfg address reply) (hok : reply.1.code = 0) :
    ∃ node loadavg status, nodes address = some node ∧
      Server.query node.host node.jobsMax loadavg
        ⟨cfg.compilerName, cfg.compressionType⟩ = .ok (status, reply.2) ∧
      status.code = .OK := by
  obtain ⟨node, loadavg, status, hnode, hquery, hstatus⟩ := h hok
  rw [hstatus] at hok
  exact ⟨node, loadavg, status, hnode, hquery,
    StatusCode.number_eq_zero.mp hok⟩

/-- A process starts among the nodes. -/
def startsAmong (nodes : Str → Option Node) : Client.Event → Prop
  | .start cfg w => ∀ address, Vouched nodes cfg address (w.query address)
  | .advance _ => True

/-- A server lets a job with this compiler past its checks. -/
def Lets (node : Node) (compiler : Str) : Prop :=
  ∀ request : CompileRequest, request.compiler = compiler →
    Server.sanitizeFile request.inputFile = true →
    (Server.distributeStep node.host request)^[2] .sanitize = .decompress

variable {nodes : Str → Option Node}

/-- A server that has answered for a compiler lets its jobs past. -/
theorem Vouched.lets {cfg : Client.Config} {address : Str}
    {reply : ReceivedStatus × QueryAnswer}
    (h : Vouched nodes cfg address reply) (hok : reply.1.code = 0) :
    ∃ node, nodes address = some node ∧ Lets node cfg.compilerName := by
  obtain ⟨node, loadavg, status, hnode, hquery, hstatus⟩ := h.query hok
  obtain ⟨hs, hc, -⟩ := Server.query_ok hquery hstatus
  refine ⟨node, hnode, fun request hcompiler hfile => ?_⟩
  dsimp only at hs hc
  rw [← hcompiler] at hs hc
  show Server.distributeStep node.host request
    (Server.distributeStep node.host request .sanitize) = _
  simp only [Server.distributeStep, Server.sanitizeRequest, hs, hfile,
    Bool.not_true, Bool.false_eq_true, if_false, hc]

-- ============================================================== the invariant

/-- Every process is among the nodes, and every reply so far was vouched
for. -/
structure Honest (nodes : Str → Option Node) (log : List Ask)
    (s : Client.State D) : Prop where
  runs : ∀ (i : Nat) run, s.runs[i]? = some run →
    ∀ address, Vouched nodes run.cfg address (run.surroundings.query address)
  replies : ∀ a ∈ log, Vouched nodes a.cfg a.host a.reply

theorem Honest.step {e : Client.Event} {t : Client.State D} {log : List Ask}
    {new : List Ask} (h : Honest nodes log s) (hq : startsAmong nodes e)
    (hm : Moves s e t new) : Honest nodes (new.reverse ++ log) t := by
  cases hm with
  | start cfg w =>
      refine ⟨fun i run hi => ?_, h.replies⟩
      rcases getElem?_append_one_cases hi with ⟨-, rfl⟩ | hold
      · exact hq
      · exact h.runs i run hold
  | @advance j before env' phase asked cell txn =>
      refine ⟨fun i run hi => ?_, fun a ha => ?_⟩
      · rcases getElem?_set_cases cell hi with ⟨-, rfl⟩ | ⟨-, hold⟩
        · exact h.runs j before cell
        · exact h.runs i run hold
      · rcases List.mem_append.mp ha with hnew | hold
        · obtain ⟨address, -, rfl⟩ :=
            List.mem_map.mp (List.mem_reverse.mp hnew)
          exact h.runs _ _ cell _
        · exact h.replies a hold

theorem honest_of_traces
    (h : Traces (Client.step views) (fun _ _ e => startsAmong nodes e)
      Client.State.start past s) :
    Honest nodes (asked views past) s := by
  refine moves_invariant (P := fun past s => Honest nodes (asked views past) s)
    h ⟨fun i run hi => ?_, fun a ha => ?_⟩ fun past s e t hP hq hm => ?_
  · cases hi
  · cases ha
  · rw [asked_cons]
    exact hP.step hq hm

-- ======================================================== who asks, and when

/-- The run is over. -/
def Over (phase : Client.Phase) : Prop :=
  (∃ available, phase = .done available) ∨ ∃ e, phase = .failed e

/-- A process that has asked is over, and the hosts a scan takes over are
none of those it has to ask. -/
structure Settled (log : List Ask) (s : Client.State D) : Prop where
  asked : ∀ a ∈ log, ∃ run, s.runs[a.run]? = some run ∧ Over run.phase
  apart : ∀ (i : Nat) run v, s.runs[i]? = some run →
    run.phase = .collected v → ∀ host ∈ hosts v.available,
      host ∉ hosts v.expired

/-- A transaction that asks ends the run, and one that is over stays so. -/
theorem over_of_transaction {env env' : Env D} {run : Run}
    {phase : Client.Phase} {asked : List Str}
    (txn : Transaction env run env' phase asked)
    (h : asked ≠ [] ∨ Over run.phase) : Over phase := by
  cases txn with
  | look hphase =>
      rcases h with h | ⟨v, h⟩ | ⟨e, h⟩
      · exact absurd rfl h
      · cases hphase.symm.trans h
      · cases hphase.symm.trans h
  | scan hphase =>
      rcases h with h | ⟨v, h⟩ | ⟨e, h⟩
      · exact absurd rfl h
      · cases hphase.symm.trans h
      · cases hphase.symm.trans h
  | switch => exact .inl ⟨_, rfl⟩
  | abort => exact .inr ⟨_, rfl⟩
  | refresh _ _ _ hend =>
      rcases hend with hfailed | ⟨available, hdone, -⟩
      · exact .inr hfailed
      · exact .inl ⟨available, hdone⟩
  | rest hrest => exact hrest

theorem Settled.step {e : Client.Event} {t : Client.State D} {log : List Ask}
    {new : List Ask} (h : Settled log s) (hm : Moves s e t new) :
    Settled (new.reverse ++ log) t := by
  refine ⟨fun a ha => ?_, fun i run v hi hv => ?_⟩
  · cases hm with
    | start cfg w =>
        obtain ⟨run, hrun, hover⟩ := h.asked a ha
        obtain ⟨hlt, -⟩ := List.getElem?_eq_some_iff.mp hrun
        exact ⟨run, (List.getElem?_append_left hlt).trans hrun, hover⟩
    | @advance j before env' phase asked cell txn =>
        obtain ⟨hlt, -⟩ := List.getElem?_eq_some_iff.mp cell
        have hself : (s.runs.set j { before with phase := phase })[j]? =
            some { before with phase := phase } := List.getElem?_set_self hlt
        rcases List.mem_append.mp ha with hnew | hold
        · obtain ⟨address, hin, rfl⟩ :=
            List.mem_map.mp (List.mem_reverse.mp hnew)
          exact ⟨_, hself, over_of_transaction txn
            (.inl (List.ne_nil_of_mem hin))⟩
        · obtain ⟨run, hrun, hover⟩ := h.asked a hold
          by_cases hj : j = a.run
          · subst hj
            cases cell.symm.trans hrun
            exact ⟨_, hself, over_of_transaction txn (.inr hover)⟩
          · exact ⟨run, (List.getElem?_set_ne hj).trans hrun, hover⟩
  · rcases hm.collected hi hv with hold | ⟨-, -, -, -, -, hapart⟩
    · exact h.apart i run v hold hv
    · exact hapart

theorem settled_of_traces
    (h : Traces (Client.step views) Q Client.State.start past s) :
    Settled (asked views past) s := by
  refine moves_invariant (P := fun past s => Settled (asked views past) s)
    h ⟨fun a ha => ?_, fun i run v hi => ?_⟩ fun past s e t hP _ hm => ?_
  · cases ha
  · cases hi
  · rw [asked_cons]
    exact hP.step hm

/-- Every candidate of a run has answered: the run itself, or another
process, and the run has not asked. -/
theorem candidate_met
    (h : Traces (Client.step views) Q Client.State.start past s)
    (hf : Fills past s i run available) {address : Str}
    (hm : address ∈ hosts (candidates available).entries) :
    ∃ a ∈ asked views past, a.host = address ∧ a.reply.1.code = 0 ∧
      (a.cfg = run.cfg ∨
        ∀ b ∈ asked views past, b.run = i → b.host ≠ address) := by
  obtain ⟨u, older, before, asked, rfl, hold, -, cell, hcfg, hne, txn,
    hlog⟩ := hf.last h
  rw [hlog]
  rcases txn.candidate hne (mem_candidates.mp hm) with
    ⟨hin, hans, -⟩ | ⟨v, hv, hkept, hexpired⟩
  · refine ⟨ask i before address, List.mem_append_left _ ?_, rfl,
      of_decide_eq_true hans, .inl hcfg⟩
    exact List.mem_reverse.mpr (List.mem_map_of_mem hin)
  · obtain ⟨a, ha, hhost, -, hok⟩ := (rooted_of_traces hold).scans i before v
      cell hv address (List.mem_append_left _ hkept)
    have hsettled := settled_of_traces hold
    refine ⟨a, List.mem_append_right _ ha, hhost, hok, .inr ?_⟩
    rintro b hb hrun rfl
    rcases List.mem_append.mp hb with hnew | hbefore
    · obtain ⟨address, hin, rfl⟩ := List.mem_map.mp (List.mem_reverse.mp hnew)
      exact hsettled.apart i before v cell hv address hkept (hexpired hin)
    · -- the run has scanned, so it has not asked yet
      obtain ⟨run', hrun', hover⟩ := hsettled.asked b hbefore
      rw [hrun, cell] at hrun'
      cases hrun'
      rcases hover with ⟨_, hover⟩ | ⟨_, hover⟩
      · cases hv.symm.trans hover
      · cases hv.symm.trans hover

-- ================================================================ the results

/-- In any interleaving of processes, every server a process will try has
answered a query, and lets a job of the process that asked past its checks.
That is the process itself, unless it has taken the server over from a
record. -/
theorem candidates_welcome
    (h : Traces (Client.step views) (fun _ _ e => startsAmong nodes e)
      Client.State.start past s)
    (hf : Fills past s i run available) :
    ∀ address ∈ hosts (candidates available).entries,
      ∃ node, nodes address = some node ∧
        ∃ a ∈ asked views past, a.host = address ∧ a.reply.1.code = 0 ∧
          Lets node a.cfg.compilerName ∧
          (a.cfg = run.cfg ∨
            ∀ b ∈ asked views past, b.run = i → b.host ≠ address) := by
  intro address hm
  obtain ⟨a, ha, hhost, hok, hwho⟩ := candidate_met h hf hm
  obtain ⟨node, hnode, hlets⟩ := ((honest_of_traces h).replies a ha).lets hok
  rw [hhost] at hnode
  exact ⟨node, hnode, a, ha, hhost, hok, hlets, hwho⟩

/-- A query that reached nobody. -/
def noReply : ReceivedStatus × QueryAnswer :=
  (⟨14, [], []⟩, ⟨false, false, 0, 0⟩)

/-- What a query at an address comes to when the server there is idle. -/
def replyOf (nodes : Str → Option Node) (cfg : Client.Config)
    (address : Str) : ReceivedStatus × QueryAnswer :=
  match nodes address with
  | none => noReply
  | some node =>
      match Server.query node.host node.jobsMax (some 0)
          ⟨cfg.compilerName, cfg.compressionType⟩ with
      | .ok (status, answer) => (received status, answer)
      | .error _ => noReply

theorem replyOf_vouched (nodes : Str → Option Node) (cfg : Client.Config)
    (address : Str) :
    Vouched nodes cfg address (replyOf nodes cfg address) := by
  intro hok
  unfold replyOf at hok ⊢
  cases hnode : nodes address with
  | none =>
      rw [hnode] at hok
      cases hok
  | some node =>
      rw [hnode] at hok
      dsimp only at hok ⊢
      cases hquery : Server.query node.host node.jobsMax (some 0)
          ⟨cfg.compilerName, cfg.compressionType⟩ with
      | error e =>
          rw [hquery] at hok
          cases hok
      | ok reply => exact ⟨node, some 0, reply.1, rfl, hquery, rfl⟩

/-- At the address `h`, a server that has `gcc`. -/
def gccNode (address : Str) : Option Node :=
  if address = "h".toList then some ⟨Server.plainHost, 8⟩ else none

/-- A process with the server `h` and a compiler. -/
def clientWith (compilerName : Str) : Client.Event :=
  .start (clientOf "h".toList compilerName)
    { examined := fun _ => 0
      query := replyOf gccNode (clientOf "h".toList compilerName)
      written := fun _ => 0
      page := fun _ => [] }

/-- A process with `gcc`, and one with another compiler. -/
def twoCompilers (compilerName : Str) : List Client.Event :=
  [clientWith "gcc".toList, .advance 0, .advance 0, clientWith compilerName,
    .advance 1, .advance 1, .advance 1]

/-- The second process has the server for its candidate. -/
def takesOver (compilerName : Str)
    (past : List (Client.State (Std.ExtTreeMap Str Str compare) ×
      Client.Event))
    (s : Client.State (Std.ExtTreeMap Str Str compare)) : Bool :=
  fillsWith past s 1 [⟨0, "h".toList⟩] &&
    s.runs[1]?.all fun (run : Run) =>
      decide (run.cfg.compilerName = compilerName)

theorem twoCompilers_traces (compilerName : Str)
    (h : (traceList (Client.step (D := Std.ExtTreeMap Str Str compare)
      littleEndian) [] Client.State.start (twoCompilers compilerName)).any
        (fun r => takesOver compilerName r.1 r.2) = true) :
    ∃ past s run, Traces (Client.step (D := Std.ExtTreeMap Str Str compare)
        littleEndian) (fun _ _ e => startsAmong gccNode e) Client.State.start
        past s ∧
      Fills past s 1 run [⟨0, "h".toList⟩] ∧
      run.cfg.compilerName = compilerName := by
  have hq : ∀ e ∈ twoCompilers compilerName, startsAmong gccNode e := by
    simp only [twoCompilers, List.forall_mem_cons, List.not_mem_nil,
      false_imp_iff, implies_true, and_true, startsAmong, clientWith,
      true_and]
    exact ⟨replyOf_vouched gccNode _, replyOf_vouched gccNode _⟩
  obtain ⟨past, s, htraces, hcheck⟩ := Traces.of_events _ _ _
    (fun e he _ _ => hq e he) (takesOver compilerName) h
  simp only [takesOver, Bool.and_eq_true, Option.all_eq_true,
    decide_eq_true_iff] at hcheck
  obtain ⟨hfills, hname⟩ := hcheck
  obtain ⟨run, hrun, hfills⟩ := Fills.of_fillsWith hfills
  exact ⟨past, s, run, htraces, hfills, hname run hrun⟩

/-- With one compiler the server is right. -/
theorem candidates_welcome_taken :
    ∃ past s run, Traces (Client.step (D := Std.ExtTreeMap Str Str compare)
        littleEndian) (fun _ _ e => startsAmong gccNode e) Client.State.start
        past s ∧
      Fills past s 1 run [⟨0, "h".toList⟩] ∧
      ∃ a ∈ asked littleEndian past, a.host = "h".toList ∧
        a.reply.1.code = 0 ∧ Lets ⟨Server.plainHost, 8⟩ a.cfg.compilerName := by
  obtain ⟨past, s, run, h, hfills, -⟩ :=
    twoCompilers_traces "gcc".toList (by decide +kernel)
  refine ⟨past, s, run, h, hfills, ?_⟩
  obtain ⟨node, hnode, a, ha, hhost, hok, hlets, -⟩ :=
    candidates_welcome h hfills "h".toList (mem_candidates.mpr (by decide))
  cases hnode
  exact ⟨a, ha, hhost, hok, hlets⟩

/-- With another compiler the second process has a candidate that refuses
its job. -/
theorem unwelcome_candidate :
    ∃ past s run, Traces (Client.step (D := Std.ExtTreeMap Str Str compare)
        littleEndian) (fun _ _ e => startsAmong gccNode e) Client.State.start
        past s ∧
      Fills past s 1 run [⟨0, "h".toList⟩] ∧
      ∃ node, gccNode "h".toList = some node ∧
        ¬Lets node run.cfg.compilerName := by
  obtain ⟨past, s, run, h, hfills, hname⟩ :=
    twoCompilers_traces "clang".toList (by decide +kernel)
  refine ⟨past, s, run, h, hfills, _, rfl, fun hlets => ?_⟩
  rw [hname] at hlets
  have hphase := hlets { Server.plainRequest [] with
    compiler := "clang".toList } rfl rfl
  cases hphase

/-- Among the nodes, no sequence of runs with the same servers, which always
reply alike and fail with a named status if they fail, shows a difference
between the cache and querying everybody. -/
theorem cache_transparent_served (D : Type) [Store D Str Str]
    (views : Views) (logs : Bool) (nodes : Str → Option Node)
    (servers : List Str) (replies : Str → ReceivedStatus × QueryAnswer)
    (h : ∀ address ∈ servers, (∃ cfg, Vouched nodes cfg address
      (replies address)) ∧ Listed (replies address).1.code) :
    Transparent D views logs servers replies := by
  have hnamed : ∀ address ∈ servers, Loggable logs (replies address).1 :=
    fun address hin _ => (h address hin).2
  have hcap : ∀ address ∈ servers, ∀ a, said replies address = some a →
      a.currentLoad ≤ 100 := by
    intro address hin a ha
    rw [said] at ha
    split at ha
    case isFalse => cases ha
    case isTrue hok =>
      cases ha
      obtain ⟨cfg, hvouched⟩ := (h address hin).1
      obtain ⟨node, loadavg, status, -, hquery, hstatus⟩ :=
        hvouched.query hok
      exact (Server.query_ok hquery hstatus).2.2.2
  intro before cfg w hsteady
  have hfit : Fits logs servers replies (cfg, w) :=
    hsteady.fits _ (List.mem_append_right _ (List.mem_singleton_self _))
  obtain ⟨reg, hreg, hrem⟩ := afterRuns_remembers D views
    fun run hrun => hsteady.fits run (List.mem_append_left _ hrun)
  obtain ⟨env', available, hinit⟩ := hrem.returns hreg hfit hnamed
  obtain ⟨all, hquery, -⟩ := queriesAll_spec views
    (afterRuns views before : Env D).servers hfit hnamed
  exact ⟨env', available, all, hinit, hquery,
    (hrem.perm_iff hreg hfit hnamed hinit hquery).mpr
      fun host hin a ha _ => hcap host hin a ha⟩

/-- The server with `gcc`, asked by a client with `gcc`. -/
theorem cache_transparent_served_gcc :
    Transparent (Std.ExtTreeMap Str Str compare) littleEndian true
      ["h".toList] (replyOf gccNode (clientOf "h".toList "gcc".toList)) := by
  refine cache_transparent_served _ _ _ gccNode _ _ fun address hin => ?_
  rw [List.mem_singleton] at hin
  subst hin
  exact ⟨⟨_, replyOf_vouched gccNode _ _⟩, by decide +kernel⟩

end Distplusplus.Cluster
