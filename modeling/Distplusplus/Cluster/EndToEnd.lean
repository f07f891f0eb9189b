/-
What a client can rely on.

The clients and servers of this repository, any number of them, in any
interleaving, over a network that may fail at any time:

- `jobs_reserved`: a job is only ever sent under a reservation that its own
  client was granted by the very server, which nobody else holds, and no
  client ends in anything but an answer or the local fallback;
- `compiled_once`: a client's job is compiled at most once, whatever fails
  and wherever it asked before;
- `refused_reaped`: a job is turned away only when the reaper took its
  reservation, after the timeout;
- `answer_faithful`: an answer that arrives is the compiler's, run once, on
  the client's source with the client's arguments, and the client's file
  gets its output.

None of this holds for a server or a client on its own: to a server, anyone
may present a uuid, and to a client, anyone may answer.
-/
import Distplusplus.Cluster.Ownership
import Distplusplus.Proofs.Output
import Distplusplus.Server.Proofs.Lifetime

namespace Distplusplus.Cluster

open Lib Common Client

variable {cfg : Str → Server.Config} {s t : State} {e : Event}
variable {i j k : Nat} {a b uuid : Str} {c : Sender}
variable {clock : Str → Int} {host : Server.Host} {request : CompileRequest}
variable {phase : Server.Phase}

/-- States reached with distinct uuids at each server. -/
abbrev Reachable (cfg : Str → Server.Config) (clock : Str → Int)
    (s : State) : Prop :=
  Reaches (step cfg) (fun s e => fresh s e = true) (.start clock) s

-- ================================================================== runs

/-- A client of the servers at `a` and `b`, with a plain job. -/
def plainSender : Send.Config where
  servers := ["a".toList, "b".toList]
  job :=
    { compilerName := "gcc".toList
      args := ["-c".toList]
      fileName := "a.c".toList
      fileContent := "int a;".toList
      compressionType := CompressionType.NONE
      cwd := "/".toList }
  logsWarnings := true
  logsErrors := true

/-- What happens at the server at `a`. -/
def atServer (events : List Server.Event) : List Event :=
  events.map (.server "a".toList)

/-- Two clients, the first of which is granted a slot and sends its job. -/
def sentRunOf (clientCfg : Send.Config) (host : Server.Host) : List Event :=
  [.client clientCfg, .client clientCfg, .call 0 host] ++
    atServer (Server.reserveRun 0 "u".toList) ++ [.answer 0, .call 0 host]

def sentRun : List Event := sentRunOf plainSender Server.plainHost

/-- The job is compiled while the second client asks, and the answer comes
back. -/
def answeredRunOf (clientCfg : Send.Config) (host : Server.Host) :
    List Event :=
  sentRunOf clientCfg host ++ [.call 1 host] ++
    atServer (.replicate 10 (.advance 1)) ++ [.answer 0]

def answeredRun : List Event := answeredRunOf plainSender Server.plainHost

/-- The job is slower than the reaper. -/
def refusedRun : List Event :=
  sentRun ++ atServer ([.reaper, .reaper, .tick 1000000001, .reaper, .reaper,
    .reaper, .reaper, .tick 1000000001, .reaper, .reaper, .advance 1])

/-- The state a run of clients and servers with one slot ends in. -/
abbrev Ends (run : List Event) (s : State) : Prop :=
  runList (step fun _ => ⟨1, 1⟩) (.start fun _ => 0) run = some s

theorem Ends.reachable {run : List Event} (h : Ends run s)
    (hfresh : guardedList (step fun _ => ⟨1, 1⟩) fresh (.start fun _ => 0)
      run = true) : Reachable (fun _ => ⟨1, 1⟩) (fun _ => 0) s :=
  Reaches.of_runList (fun _ _ h => h) run h hfresh

-- ============================================================ reservations

/-- A reservation has one holder. -/
theorem granted_alone (h : Reachable cfg clock s)
    (hi : Granted s i a uuid) (hj : Granted s j a uuid) : i = j := by
  obtain ⟨k, status, hk, cell⟩ := hi
  obtain ⟨l, status', hl, cell'⟩ := hj
  have hapart := Server.Apart.of_reaches (fun _ _ hq => hq)
    (server_reaches h a)
  obtain rfl := hapart k l _ _ uuid cell cell' rfl rfl
  exact Option.some.inj (hk.symm.trans hl)

/-- Every `Distribute` call of a server is a client's. -/
theorem exists_owner (h : Reachable cfg clock s)
    (cell : (s.servers a).calls[k]? =
      some (.distribute host request phase)) :
    ∃ i, Owns s i a k (.distribute host request phase) := by
  obtain ⟨hk, -⟩ := List.getElem?_eq_some_iff.mp cell
  rw [← (Owned.of_reaches h).lengths a] at hk
  exact ⟨_, List.getElem?_eq_getElem hk, cell⟩

/-- A job is sent under a reservation of its own. At every server, a
`Distribute` call is some client's, brings that client's job, and presents a
uuid with which that server answered a `Reserve` call of that client; no
other client holds it. And a client that gets no answer falls back. -/
theorem jobs_reserved (h : Reachable cfg clock s) :
    (∀ (a : Str) (k : Nat) (host : Server.Host) (request : CompileRequest)
        (phase : Server.Phase),
      (s.servers a).calls[k]? = some (.distribute host request phase) →
      ∃ (i : Nat) (c : Sender), (s.owners a)[k]? = some i ∧
        s.clients[i]? = some c ∧
        request = c.cfg.job.compileRequest request.uuid ∧
        Granted s i a request.uuid ∧
        ∀ j, Granted s j a request.uuid → j = i) ∧
    ∀ (i : Nat) (c : Sender) (thrown : Thrown), s.clients[i]? = some c →
      (c.send.phase = .gaveUp thrown ∨
        c.send.phase = .done (.error thrown)) →
      thrown = .fallbackSignal := by
  have hs := Owned.of_reaches h
  constructor
  · intro a k host request phase cell
    obtain ⟨i, howns⟩ := exists_owner h cell
    obtain ⟨c, who, hjob, hg, -⟩ := hs.jobs _ _ _ _ _ _ howns
    exact ⟨i, c, howns.1, who, hjob, hg, fun j hj => granted_alone h hj hg⟩
  · intro i c thrown who hend
    have hsound := hs.sound i c who
    unfold Sound at hsound
    rcases hend with hp | hp
    · rw [hp] at hsound
      exact hsound
    · rw [hp] at hsound
      exact hsound

theorem jobs_reserved_sent :
    ∃ s i c, Ends sentRun s ∧ (s.owners "a".toList)[1]? = some i ∧
      s.clients[i]? = some c ∧ Granted s i "a".toList "u".toList ∧
      ∀ j, Granted s j "a".toList "u".toList → j = i := by
  have hrun : Ends sentRun _ := rfl
  have h := jobs_reserved (hrun.reachable (by decide))
  obtain ⟨i, c, hown, who, -, hg, halone⟩ :=
    h.1 "a".toList 1 _ _ _ rfl
  exact ⟨_, i, c, hrun, hown, who, hg, halone⟩

-- ================================================================== once

/-- Who started a compiler is a client's `Distribute` call. -/
theorem started_owned (h : Reachable cfg clock s)
    (hstarted : .started k request ∈ (s.servers a).log) :
    ∃ i host phase, Owns s i a k (.distribute host request phase) ∧
      Server.Accepted host request := by
  obtain ⟨host, phase, cell, haccepted⟩ :=
    (Server.Gate.of_reaches (server_reaches h a)).accepted k request hstarted
  obtain ⟨i, howns⟩ := exists_owner h cell
  exact ⟨i, host, phase, howns, haccepted⟩

/-- A compiler that is started is started once. -/
theorem started_once (h : Reachable cfg clock s)
    (hstarted : .started k request ∈ (s.servers a).log) :
    (s.servers a).log.countP (Server.Note.starts k) = 1 := by
  obtain ⟨i, host, phase, howns, -⟩ := started_owned h hstarted
  have hle := (Server.Gate.of_reaches (server_reaches h a)).allowed k
  rw [howns.2, Server.allowance] at hle
  have hpos : 1 ≤ (s.servers a).log.countP (Server.Note.starts k) :=
    List.countP_pos_iff.mpr ⟨_, hstarted, by simp [Server.Note.starts]⟩
  split at hle <;> omega

/-- Two that are started for one client are one, at one server. -/
theorem started_alone (h : Reachable cfg clock s)
    (hstarted : .started k request ∈ (s.servers a).log)
    (hown : (s.owners a)[k]? = some i) {request' : CompileRequest}
    (hstarted' : .started j request' ∈ (s.servers b).log)
    (hown' : (s.owners b)[j]? = some i) : b = a ∧ j = k := by
  obtain ⟨_, _, _, howns, -⟩ := started_owned h hstarted
  obtain rfl := Option.some.inj (hown.symm.trans howns.1)
  obtain ⟨_, _, _, howns', -⟩ := started_owned h hstarted'
  obtain rfl := Option.some.inj (hown'.symm.trans howns'.1)
  exact (Owned.of_reaches h).once _ _ _ _ _ _ _ _ _ _ _ howns' howns

/-- A client's job is compiled at most once. Every compiler that a server
starts compiles the job of some client; two that are started for one client
are one, at one server; and that one is started once. -/
theorem compiled_once (h : Reachable cfg clock s) :
    ∀ a k request, .started k request ∈ (s.servers a).log →
      (s.servers a).log.countP (Server.Note.starts k) = 1 ∧
      ∃ (i : Nat) (c : Sender), (s.owners a)[k]? = some i ∧
        s.clients[i]? = some c ∧
        request = c.cfg.job.compileRequest request.uuid ∧
        ∀ b j request', .started j request' ∈ (s.servers b).log →
          (s.owners b)[j]? = some i → b = a ∧ j = k := by
  intro a k request hstarted
  obtain ⟨i, host, phase, howns, -⟩ := started_owned h hstarted
  obtain ⟨c, who, hjob, -, -⟩ :=
    (Owned.of_reaches h).jobs _ _ _ _ _ _ howns
  exact ⟨started_once h hstarted, i, c, howns.1, who, hjob,
    fun b j request' hstarted' hown' =>
      started_alone h hstarted howns.1 hstarted' hown'⟩

theorem compiled_once_answered :
    ∃ s, Ends answeredRun s ∧
      (s.servers "a".toList).log.countP (Server.Note.starts 1) = 1 ∧
      ∃ i c, (s.owners "a".toList)[1]? = some i ∧ s.clients[i]? = some c := by
  have hrun : Ends answeredRun _ := rfl
  obtain ⟨hcount, i, c, hown, who, -⟩ :=
    compiled_once (hrun.reachable (by decide)) "a".toList 1
      (plainSender.job.compileRequest "u".toList) (by decide)
  exact ⟨_, hrun, hcount, i, c, hown, who⟩

-- ================================================================ refusals

/-- The reaper took a reservation with the uuid. -/
def Reaped (uuid : Str) (log : List Server.Note) : Prop :=
  ∃ r timestamp now gone, .reaped timestamp now gone ∈ log ∧ r ∈ gone ∧
    r.uuid = uuid

/-- A lookup that finds nothing comes after that. -/
def Lawful (note : Server.Note) (before : List Server.Note) : Prop :=
  ∀ k uuid time, note = .presented k uuid time [] → Reaped uuid before

/-- A lookup of a reachable cluster finds its reservation, or the reaper was
first. -/
theorem lookup_lawful (h : Reachable cfg clock s)
    (cell : (s.servers a).calls[k]? =
      some (.distribute host request .lookup))
    (hnone : (s.servers a).reservations.matching
      (·.uuid = request.uuid) = []) :
    Reaped request.uuid (s.servers a).log := by
  have hs := Owned.of_reaches h
  have hreach := server_reaches h a
  have htickets := Server.Tickets.of_reaches (fun _ _ hq => hq) hreach
  obtain ⟨i, howns⟩ := exists_owner h cell
  obtain ⟨-, -, -, ⟨l, status, hl, cell'⟩, -⟩ := hs.jobs _ _ _ _ _ _ howns
  -- the reservation was inserted, and is not there
  obtain ⟨r, hr, hu⟩ : ∃ r ∈ Server.inserted (s.servers a).log,
      r.uuid = request.uuid := by
    rcases Server.Known.of_reaches hreach l _ cell' with
      ⟨-, hno⟩ | ⟨-, uuid, heq, -, hr⟩
    · cases hno
    · cases heq
      exact hr
  have hgone : r ∈ Server.removed (s.servers a).log := by
    rcases List.mem_append.mp (htickets.split.mem_iff.mpr hr) with hin | hout
    · rw [Bag.matching, List.filter_eq_nil_iff] at hnone
      exact absurd (decide_eq_true hu) (hnone r hin)
    · exact hout
  obtain ⟨n, hn, hrn⟩ := List.mem_flatMap.mp hgone
  obtain ⟨after, before, -, htimely⟩ :=
    (Server.Aged.of_reaches hreach).timely.of_mem hn
  cases n with
  | reaped timestamp now gone =>
      exact ⟨r, timestamp, now, gone, hn, hrn, hu⟩
  | presented j uuid time gone =>
      -- the same client would have presented it twice
      have huuid : uuid = request.uuid := (htimely.1 r hrn).symm.trans hu
      obtain ⟨host', request', phase', hj, hu', hne⟩ :=
        Server.Presented.of_reaches hreach _ hn j uuid rfl
      obtain ⟨i', howns'⟩ := exists_owner h hj
      obtain ⟨-, -, -, hg', -⟩ := hs.jobs _ _ _ _ _ _ howns'
      rw [hu', huuid] at hg'
      obtain rfl := granted_alone h ⟨l, status, hl, cell'⟩ hg'
      obtain ⟨-, rfl⟩ := hs.once _ _ _ _ _ _ _ _ _ _ _ howns howns'
      rw [cell] at hj
      cases hj
      exact absurd rfl hne
  | generated => cases hrn
  | inserted => cases hrn
  | started => cases hrn

/-- The logs grow lawfully. -/
theorem lawful_of_reaches (h : Reachable cfg clock s) (a : Str) :
    Logged Lawful (s.servers a).log := by
  refine Reaches.invariant_with (I := Reachable cfg clock)
    (P := fun s => ∀ a, Logged Lawful (s.servers a).log) h
    (fun s hs => hs) (fun a => trivial) ?_ a
  intro s e t hreach hs _ hse b
  have moved : ∀ {a event u},
      Server.step (cfg a) (s.servers a) event = some u →
      Logged Lawful (Function.update s.servers a u b).log := by
    intro a event u hstep
    by_cases hab : b = a
    · subst hab
      rw [Function.update_self]
      rcases Server.step_log hstep with hlog | ⟨note, hlog, hempty⟩
      · exact hlog ▸ hs b
      · rw [hlog]
        refine ⟨fun k uuid time heq => ?_, hs b⟩
        obtain ⟨host, request, cell, rfl, hnone⟩ := hempty k uuid time heq
        exact lookup_lawful hreach cell hnone
    · rw [Function.update_of_ne hab]
      exact hs b
  cases step_effect hse with
  | client => exact hs b
  | told => exact hs b
  | server internal hu => exact moved hu
  | call who idle makes hu => exact moved hu

/-- A job is turned away only after its reservation was reaped, and that was
more than the timeout after the reservation was made. -/
theorem refused_reaped (h : Reachable cfg clock s)
    (hfit : (cfg a).reservationTimeout.toNat < 2 ^ 63)
    {status : Status} {answer : Option CompileAnswer}
    (cell : (s.servers a).calls[k]? = some (.distribute host request
      (.returned status answer)))
    (hcode : status.code = .FAILED_PRECONDITION) :
    ∃ r timestamp now gone,
      .reaped timestamp now gone ∈ (s.servers a).log ∧ r ∈ gone ∧
      r.uuid = request.uuid ∧
      r.time + (cfg a).reservationTimeout.toNat * second < now := by
  have hreach := server_reaches h a
  rcases Server.Answered.of_reaches hreach k _ cell with hpast | ⟨time, hn⟩
  · exact absurd hcode hpast
  · obtain ⟨after, before, hlog, hlawful⟩ :=
      (lawful_of_reaches h a).of_mem hn
    obtain ⟨r, timestamp, now, gone, hmem, hr, hu⟩ := hlawful _ _ _ rfl
    have hreaped : .reaped timestamp now gone ∈ (s.servers a).log := by
      rw [hlog]
      exact List.mem_append_right _ (List.mem_cons_of_mem _ hmem)
    exact ⟨r, timestamp, now, gone, hreaped, hr, hu,
      Server.reaped_old (Server.Aged.of_reaches hreach) hfit hreaped r hr⟩

theorem refused_reaped_slow :
    ∃ s host request status answer, Ends refusedRun s ∧
      (s.servers "a".toList).calls[1]? =
        some (.distribute host request (.returned status answer)) ∧
      status.code = .FAILED_PRECONDITION ∧
      ∃ r timestamp now gone,
        .reaped timestamp now gone ∈ (s.servers "a".toList).log ∧ r ∈ gone ∧
        r.uuid = request.uuid ∧ r.time + 1 * second < now := by
  have hrun : Ends refusedRun _ := rfl
  have h := refused_reaped (hrun.reachable (by decide)) (a := "a".toList)
    (k := 1) (by decide) rfl rfl
  exact ⟨_, _, _, _, _, hrun, rfl, rfl, h⟩

-- ================================================================= answers

/-- Behind an answer that arrived is a compiler that was started once, on
the client's job. -/
theorem answer_produced (h : Reachable cfg clock s)
    (who : s.clients[i]? = some c) {answer : CompileAnswer}
    (hdone : c.send.phase = .done (.ok answer)) :
    ∃ a k host uuid status, Owns s i a k
        (.distribute host (c.cfg.job.compileRequest uuid)
          (.returned status (some answer))) ∧
      (s.servers a).log.countP (Server.Note.starts k) = 1 ∧
      .started k (c.cfg.job.compileRequest uuid) ∈ (s.servers a).log ∧
      Server.Produced host (c.cfg.job.compileRequest uuid) answer := by
  have hs := Owned.of_reaches h
  have hsound := hs.sound i c who
  unfold Sound at hsound
  rw [hdone] at hsound
  obtain ⟨a, k, host, request, status, howns, hok⟩ := hsound
  obtain ⟨c', who', hjob, -, -⟩ := hs.jobs _ _ _ _ _ _ howns
  obtain rfl := Option.some.inj (who.symm.trans who')
  obtain ⟨answer', heq, hproduced⟩ :=
    Server.produced_of_ok (server_reaches h a) howns.2 hok
  cases heq
  have hstarted :=
    Server.Launched.of_reaches (server_reaches h a) k _ howns.2 hok
  have hcount := started_once h hstarted
  rw [hjob] at howns hstarted hproduced
  exact ⟨a, k, host, request.uuid, status, howns, hcount, hstarted,
    hproduced⟩

/-- What the client makes of the answer of a compiler that ran, where the
libraries fit: the compiler ran on the client's source with the client's
arguments, and what it came to is what the client ends with. -/
theorem received_of_produced {job : Send.Job} {answer : CompileAnswer}
    {lib : Option Zstd} {level : Int64} {source : Str}
    (h : Server.Produced host (job.compileRequest uuid) answer)
    (hsent : compressor lib job.compressionType level source =
      .ok job.fileContent)
    (hto : Codec lib host.zstd) (hback : Codec host.zstd lib) :
    ∃ args input output process,
      Server.parse job.args = .ok args ∧
      host.child (host.searchPath job.compilerName)
        (Server.compilerArgs args input output) source = .ok process ∧
      answer.stderr = process.stderr ∧ answer.stdout = process.stdout ∧
      ∀ outfile, receive lib outfile answer = .ok
        ⟨fileLeft outfile host.compressorFactory.compressionType
          process.output, process.stderr, process.stdout,
          process.returnCode⟩ := by
  obtain ⟨input, output, process, content, hran, hcompressed, rfl⟩ := h
  obtain ⟨-, data, args, hdata, hargs, hchild⟩ := hran
  have hsource : data = source := by
    have hsame := hto.decompressor hsent
    rw [Send.Job.compileRequest] at hdata
    exact Except.ok.inj (hdata.symm.trans hsame)
  subst hsource
  exact ⟨args, input, output, process, hargs, hchild, rfl, rfl,
    hback.receive hcompressed⟩

/-- An answer that arrives is faithful. It is what one call of the client's
at some server returned, and that call started one compiler, for the
client's job. Where the client's libraries and that server's fit, the
compiler was run on the text the client compressed, with the arguments the
client sent as the server filters them, and what the client ends with is
what it came to: its messages, its return code and, as far as the disk
takes it, its output; of no output an uncompressed answer leaves the file
alone. -/
theorem answer_faithful (h : Reachable cfg clock s)
    (who : s.clients[i]? = some c) {answer : CompileAnswer}
    (hdone : c.send.phase = .done (.ok answer)) (lib : Option Zstd)
    (level : Int64) {source : Str}
    (hsent : compressor lib c.cfg.job.compressionType level source =
      .ok c.cfg.job.fileContent) :
    ∃ a k host uuid status, (s.owners a)[k]? = some i ∧
      (s.servers a).calls[k]? = some (.distribute host
        (c.cfg.job.compileRequest uuid) (.returned status (some answer))) ∧
      (s.servers a).log.countP (Server.Note.starts k) = 1 ∧
      .started k (c.cfg.job.compileRequest uuid) ∈ (s.servers a).log ∧
      (Codec lib host.zstd → Codec host.zstd lib →
        ∃ args input output process,
          Server.parse c.cfg.job.args = .ok args ∧
          host.child (host.searchPath c.cfg.job.compilerName)
            (Server.compilerArgs args input output) source = .ok process ∧
          ∀ outfile, ∃ remote, receive lib outfile answer = .ok remote ∧
            remote.cout = process.stderr ++ process.stdout ∧
            remote.returnCode = process.returnCode ∧
            remote.written = fileLeft outfile
              host.compressorFactory.compressionType process.output ∧
            (process.output ≠ [] → outfile.Takes process.output →
              remote.written = some process.output)) := by
  obtain ⟨a, k, host, uuid, status, howns, hcount, hstarted, hproduced⟩ :=
    answer_produced h who hdone
  refine ⟨a, k, host, uuid, status, howns.1, howns.2, hcount, hstarted,
    fun hto hback => ?_⟩
  obtain ⟨args, input, output, process, hargs, hchild, -, -, hreceived⟩ :=
    received_of_produced hproduced hsent hto hback
  refine ⟨args, input, output, process, hargs, hchild, fun outfile =>
    ⟨_, hreceived outfile, rfl, rfl, rfl, fun hne htakes => ?_⟩⟩
  exact (if_neg fun hn => hne hn.2).trans
    (Outfile.write_eq_some_iff.mpr htakes)

theorem answer_faithful_plain :
    ∃ s c answer, Ends answeredRun s ∧ s.clients[0]? = some c ∧
      c.send.phase = .done (.ok answer) ∧
      ∃ k uuid status, (s.owners "a".toList)[k]? = some 0 ∧
        (s.servers "a".toList).calls[k]? = some (.distribute
          Server.plainHost (plainSender.job.compileRequest uuid)
          (.returned status (some answer))) ∧
        (s.servers "a".toList).log.countP (Server.Note.starts k) = 1 ∧
        ∃ args input output process,
          Server.parse plainSender.job.args = .ok args ∧
          Server.plainHost.child "/usr/bin/gcc".toList
            (Server.compilerArgs args input output) "int a;".toList =
              .ok process ∧
          ∃ remote, receive none ⟨true, none⟩ answer = .ok remote ∧
            remote.written = some process.output := by
  have hrun : Ends answeredRun _ := rfl
  have hreach := hrun.reachable (by decide)
  have hsent : compressor none CompressionType.NONE 1 "int a;".toList =
      .ok "int a;".toList := rfl
  obtain ⟨a, k, host, uuid, status, hown, cell, hcount, hstarted, hends⟩ :=
    answer_faithful hreach (i := 0) rfl rfl none 1 hsent
  obtain ⟨rfl, rfl⟩ := started_alone hreach (i := 0)
    (show Server.Note.started 1 (plainSender.job.compileRequest "u".toList) ∈
      (State.servers _ "a".toList).log by decide) rfl hstarted hown
  have hhost : host = Server.plainHost := by
    cases cell
    rfl
  subst hhost
  obtain ⟨args, input, output, process, hargs, hchild, hremote⟩ :=
    hends noCodec noCodec
  obtain ⟨remote, hreceived, -, -, -, hwritten⟩ := hremote ⟨true, none⟩
  have hcode : process.output ≠ [] := by
    cases hchild
    decide
  exact ⟨_, _, _, hrun, rfl, rfl, 1, uuid, status, hown, cell, hcount, args,
    input, output, process, hargs, hchild, remote, hreceived,
    hwritten hcode ⟨rfl, nofun⟩⟩

end Distplusplus.Cluster
