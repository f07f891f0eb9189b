/-
A whole client among the servers.

`EndToEnd` is about a client from its first `Reserve` to its last answer.
Here it is a program that was started with a command line: it parses,
preprocesses, compresses, asks and sends, writes and prints; and the answers
its `send` gets are those that the cluster gives one of its clients.

`whole_run` is what this program is for. Either the run ends with one
compilation at one server, of the text the local preprocessor wrote, under
the arguments that were parsed, and what a caller sees of a compiler, its
messages, its return code and, where there is one, its output file, is what
that compilation came to; or the client compiles locally what it was asked
to compile, and has left nothing behind but the diagnostics of its
preprocessor.
-/
import Distplusplus.Client.Proofs.Ending
import Distplusplus.Cluster.EndToEnd

namespace Distplusplus.Cluster

open Lib Common Client
open Main (World Prepared)

variable {cfg : Str → Server.Config} {s t : State} {e : Event} {i : Nat}
variable {clock : Str → Int} {c : Sender} {w : World} {argv0 : Arg}
variable {args : List Arg} {P : Prepared w argv0 args} {servers : List Str}

-- ================================================================== answers

/-- What a client has been told leads to where it is. -/
def Told (c : Sender) (answers : List Send.Event) : Prop :=
  runList (Send.step c.cfg) (Send.start c.cfg) answers = some c.send

theorem told_of_reaches (h : Reachable cfg clock s)
    (who : s.clients[i]? = some c) : ∃ answers, Told c answers := by
  refine h.invariant (P := fun s => ∀ (i : Nat) (c : Sender),
    s.clients[i]? = some c → ∃ answers, Told c answers) ?_ ?_ i c who
  · intro i c hc
    cases hc
  · intro s e t hs _ hse
    cases step_effect hse with
    | server => exact hs
    | client clientCfg =>
        intro i c hc
        rcases getElem?_append_one_cases hc with ⟨-, rfl⟩ | hc
        · exact ⟨[], rfl⟩
        · exact hs i c hc
    | call who idle makes hu =>
        refine clients_set who (P := fun _ d => ∃ answers, Told d answers)
          hs ?_
        obtain ⟨answers, htold⟩ := hs _ _ who
        exact ⟨answers, htold⟩
    | told who tells hsend =>
        refine clients_set who (P := fun _ d => ∃ answers, Told d answers)
          hs ?_
        obtain ⟨answers, htold⟩ := hs _ _ who
        exact ⟨answers ++ [_], runList_concat htold hsend⟩

-- =================================================================== a run

/-- The client `c` of the cluster is the one that was started in `w`, with
what it has prepared, and its answers are those it gets. -/
structure Runs (P : Prepared w argv0 args) (servers : List Str)
    (c : Sender) : Prop where
  started : (stdinEmpty w.platform w.first w.stdin).1 = true
  connects : P.Connects servers
  config : c.cfg = ⟨servers, P.job, w.logsWarnings, w.logsErrors⟩
  told : Told c w.answers

/-- What the handler reads for the local compiler. -/
def Runs.cin (_ : Runs P servers c) : Str :=
  fallbackInput w.platform w.second (stdinEmpty w.platform w.first w.stdin).2

/-- What `send` comes to in it. -/
theorem Runs.send (h : Runs P servers c) :
    (Main.send w servers P.job).result = Main.outcome c.send.phase := by
  have htold := h.told
  unfold Told at htold
  rw [h.config] at htold
  exact Main.sendFrom_result htold

/-- It is compiled at a server, if an answer arrives. -/
theorem Runs.answered (h : Runs P servers c) {answer : CompileAnswer}
    {remote : Remote} (hdone : c.send.phase = .done (.ok answer))
    (hremote : receive w.lib w.outfile answer = .ok remote) :
    Main.main w argv0 args =
      ⟨(P.actions ++ .query P.job.compilerName ::
            (Main.send w servers P.job).done) ++
          (Main.wrote P.p.outfile remote.written ++
            (Main.printed .cout remote.stderr ++
              Main.printed .cout remote.stdout)),
        .ok remote.returnCode⟩ := by
  have hsend : (Main.send w servers P.job).result =
      (Except.ok answer).mapError .thrown := by rw [h.send, hdone]; rfl
  have hconcluded : concluded w.lib w.outfile (.ok answer) =
      .ok remote := by rw [concluded, hremote]
  rw [Main.main_ending P h.started h.connects hsend,
    Main.main_of_started h.started, hconcluded]
  simp only [mainEnd, Main.carryOut, Main.report_eq]

/-- It is compiled locally, if there is none. -/
theorem Runs.fellBack (h : Runs P servers c)
    (hout : Main.outcome c.send.phase =
      .error (.thrown .fallbackSignal)) :
    Main.main w argv0 args =
      ⟨(P.actions ++ .query P.job.compilerName ::
            (Main.send w servers P.job).done) ++
          (Main.localInvocation w (runFallback w.m w.fallback h.cin
            (argv0 :: args))).done,
        (Main.localInvocation w (runFallback w.m w.fallback h.cin
          (argv0 :: args))).result⟩ := by
  have hsend : (Main.send w servers P.job).result =
      (Except.error .fallbackSignal : Except Thrown CompileAnswer).mapError
        .thrown := by rw [h.send, hout]; rfl
  rw [Main.main_ending P h.started h.connects hsend,
    Main.main_of_started h.started]
  rfl

-- ============================================================ the theorem

/-- A client that is started among the servers compiles once. If an answer
arrives, one server has compiled the text of the preprocessor once, and no
other compiler was started for the client; where the libraries fit, the
client's caller sees what that came to: the output file, as far as there is
output and the disk takes it, the messages, the return code. If `send` ends
without an answer, what the client does from there is the local
compilation. -/
theorem whole_run (h : Reachable cfg clock s)
    (who : s.clients[i]? = some c) (hruns : Runs P servers c) :
    (∀ answer, c.send.phase = .done (.ok answer) →
      ∃ a k host uuid status, (s.owners a)[k]? = some i ∧
        (s.servers a).calls[k]? = some (.distribute host
          (P.job.compileRequest uuid) (.returned status (some answer))) ∧
        .started k (P.job.compileRequest uuid) ∈ (s.servers a).log ∧
        (s.servers a).log.countP (Server.Note.starts k) = 1 ∧
        (∀ b j request, .started j request ∈ (s.servers b).log →
          (s.owners b)[j]? = some i → b = a ∧ j = k) ∧
        (Codec w.lib host.zstd → Codec host.zstd w.lib →
          ∃ compilerArgs input output process,
            Server.parse P.job.args = .ok compilerArgs ∧
            host.child (host.searchPath P.job.compilerName)
              (Server.compilerArgs compilerArgs input output)
              P.preprocessed.stdout = .ok process ∧
            Main.main w argv0 args =
              ⟨(P.actions ++ .query P.job.compilerName ::
                    (Main.send w servers P.job).done) ++
                  (Main.wrote P.p.outfile (fileLeft w.outfile
                      host.compressorFactory.compressionType
                      process.output) ++
                    (Main.printed .cout process.stderr ++
                      Main.printed .cout process.stdout)),
                .ok process.returnCode⟩)) ∧
    ((∃ thrown, c.send.phase = .gaveUp thrown ∨
        c.send.phase = .done (.error thrown)) →
      Main.main w argv0 args =
        ⟨(P.actions ++ .query P.job.compilerName ::
              (Main.send w servers P.job).done) ++
            (Main.localInvocation w (runFallback w.m w.fallback hruns.cin
              (argv0 :: args))).done,
          (Main.localInvocation w (runFallback w.m w.fallback hruns.cin
            (argv0 :: args))).result⟩) := by
  have hjob : c.cfg.job = P.job := by rw [hruns.config]
  constructor
  · intro answer hdone
    obtain ⟨a, k, host, uuid, status, howns, hcount, hstarted, hproduced⟩ :=
      answer_produced h who hdone
    rw [hjob] at howns hstarted hproduced
    refine ⟨a, k, host, uuid, status, howns.1, howns.2, hstarted, hcount,
      fun b j request hstarted' hown' =>
        started_alone h hstarted howns.1 hstarted' hown',
      fun hto hback => ?_⟩
    obtain ⟨compilerArgs, input, output, process, hargs, hchild, -, -,
      hreceived⟩ := received_of_produced hproduced P.compressed hto hback
    exact ⟨compilerArgs, input, output, process, hargs, hchild,
      hruns.answered hdone (hreceived w.outfile)⟩
  · rintro ⟨thrown, hend⟩
    have hsound := (Owned.of_reaches h).sound i c who
    unfold Sound at hsound
    refine hruns.fellBack ?_
    rcases hend with hp | hp
    · rw [hp] at hsound ⊢
      obtain rfl : thrown = .fallbackSignal := hsound
      rfl
    · rw [hp] at hsound ⊢
      obtain rfl : thrown = .fallbackSignal := hsound
      rfl

/-- The command line of the plain client of `Main`. -/
def plainParser : Parser :=
  ⟨[], "-c".toList, "a.c".toList, "a.o".toList, none, some true, .C⟩

theorem plain_parsed : parse Main.plainWorld.fs 2
    ["-c".toList, "a.c".toList] = .ok plainParser := by decide +kernel

theorem plain_ran : Main.plainWorld.run "/usr/bin/cc".toList
    ["a.c".toList, "-E".toList] [] = .ok ⟨0, "int a;".toList, []⟩ := by
  decide +kernel

/-- What it has prepared, whatever it is told. -/
def plainPrepared (answers : List Send.Event) :
    Prepared { Main.plainWorld with answers := answers } "cc".toList
      ["-c".toList, "a.c".toList] where
  compiler := "cc".toList
  cwd := "/".toList
  p := plainParser
  preprocessed := ⟨0, "int a;".toList, []⟩
  content := "int a;".toList
  isCompiler := rfl
  isCwd := rfl
  parsed := plain_parsed
  distributes := rfl
  ran := plain_ran
  compressed := rfl

/-- Its `send`. -/
def ccSender : Send.Config :=
  ⟨["a".toList], (plainPrepared []).job, true, true⟩

/-- A server that compiles for it. -/
def ccHost : Server.Host :=
  { Server.plainHost with distcc := .entries [⟨"cc".toList, true⟩] }

theorem whole_run_plain :
    ∃ s c answers, Ends (answeredRunOf ccSender ccHost) s ∧
      s.clients[0]? = some c ∧ Runs (plainPrepared answers) ["a".toList] c ∧
      ∃ k uuid status answer, (s.owners "a".toList)[k]? = some 0 ∧
        (s.servers "a".toList).calls[k]? = some (.distribute ccHost
          ((plainPrepared answers).job.compileRequest uuid)
          (.returned status (some answer))) ∧
        (s.servers "a".toList).log.countP (Server.Note.starts k) = 1 ∧
        ∃ as, Main.main { Main.plainWorld with answers := answers }
          "cc".toList ["-c".toList, "a.c".toList] =
            ⟨as ++ [.write "a.o".toList "code".toList], .ok 0⟩ := by
  have hrun : Ends (answeredRunOf ccSender ccHost) _ := rfl
  have hreach := hrun.reachable (by decide)
  obtain ⟨answers, htold⟩ := told_of_reaches hreach (i := 0) rfl
  have hruns : Runs (plainPrepared answers) ["a".toList] _ :=
    ⟨rfl, ⟨rfl, rfl⟩, rfl, htold⟩
  have hwhole := whole_run hreach (i := 0) rfl hruns
  obtain ⟨a, k, host, uuid, status, hown, cell, hstarted, hcount, -, hends⟩ :=
    hwhole.1 _ rfl
  obtain ⟨rfl, rfl⟩ := started_alone hreach (i := 0)
    (show Server.Note.started 1 (ccSender.job.compileRequest "u".toList) ∈
      (State.servers _ "a".toList).log by decide) rfl hstarted hown
  have hhost : host = ccHost := by
    cases cell
    rfl
  subst hhost
  obtain ⟨_, _, _, process, -, hchild, hmain⟩ := hends noCodec noCodec
  cases hchild
  exact ⟨_, _, answers, hrun, rfl, hruns, 1, uuid, status, _, hown, cell,
    hcount, _, hmain⟩

end Distplusplus.Cluster
