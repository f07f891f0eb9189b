/-
How a client goes, from its start to its end.

`Course` is every way `func` can go, with what it has done by then: it
stops before it has done anything, the preprocessor fails, the servers are
no help, or an answer arrives. `Prepared` is what there is once the
preprocessor has run, and a job is only ever made of one. `MainCourse` puts
the handler behind it.

`func` is a straight line but for the loop in `send`, so the rules of
`Acts` lead from the front of it to the end, once; whatever is said of a
client is read off the course (`func_course`, `main_course`). The calls of
the loop are those of a run of `send`, and that run is some servers into a
round (`send_spec`).
-/
import Distplusplus.Client.Main
import Distplusplus.Client.Proofs.Rounds

namespace Distplusplus.Client.Main

open Lib Common

variable {w : World} {argv0 compiler : Arg} {args : List Arg}
variable {program outfile text cin : Str} {answer : CompileAnswer}

-- ================================================================== pieces

/-- The exception a function under `escaping` leaves behind. -/
abbrev escaped {T : Type} (e : Exception) : Except Stop T :=
  .error (.thrown (.exception e))

theorem ensures_escaping {T : Type} {r : Except Exception T}
    {P : List Action → Except Stop T → Prop} :
    (escaping r).Ensures P ↔
      (∀ e, r = .error e → P [] (escaped e)) ∧
        ∀ x, r = .ok x → P [] (.ok x) := by
  cases r with
  | error e => simp [escaping, Acts.Ensures, Acts.stop]
  | ok x => simp [escaping, Acts.ensures_pure]

/-- What is printed of a text. -/
def printed (stream : Str → Action) (text : Str) : List Action :=
  if text = [] then [] else [stream text]

theorem print_eq (stream : Str → Action) (text : Str) :
    print stream text = ⟨printed stream text, .ok ()⟩ := by
  unfold print printed
  split_ifs <;> rfl

/-- What is written to the output file. -/
def wrote (outfile : Str) (written : Option Str) : List Action :=
  written.toList.map (.write outfile)

theorem writeFile_eq (outfile : Str) (written : Option Str) :
    writeFile outfile written = ⟨wrote outfile written, .ok ()⟩ := by
  cases written <;> rfl

/-- A process that comes to an end: its exit code and what it wrote. -/
def World.run (w : World) : Child := Client.processHelper w.m w.asserts w.child

theorem run_eq (w : World) (program : Str) (args : List Arg) (cin : Str) :
    w.run program args cin =
      checkProgram w.m w.asserts program >>= fun _ =>
        w.child program args cin := rfl

/-- A process is started and ends, or it cannot be. -/
theorem processHelper_spec (w : World) (program : Str) (args : List Arg)
    (cin : Str) : (processHelper w program args cin).Ensures fun as r =>
      (∃ e, w.run program args cin = .error e ∧ r = escaped e ∧
        (as = [] ∨ as = [.process program args cin])) ∨
      ∃ h, w.run program args cin = .ok h ∧ r = .ok h ∧
        as = [.process program args cin] := by
  unfold processHelper
  rw [run_eq]
  cases checkProgram w.m w.asserts program with
  | error e => exact .inl ⟨e, rfl, rfl, .inl rfl⟩
  | ok =>
      show (Acts.bind _ _).Ensures _
      cases hchild : w.child program args cin with
      | error e => exact .inl ⟨e, rfl, rfl, .inr rfl⟩
      | ok h => exact .inr ⟨h, rfl, rfl, rfl⟩

-- ==================================================================== send

section

variable {cfg : Send.Config} {s t : Send.State} {e : Send.Event}
variable {past : List (Send.State × Send.Event)} {answers : List Send.Event}

/-- A run of `send`. -/
abbrev SendRun (cfg : Send.Config)
    (past : List (Send.State × Send.Event)) (s : Send.State) : Prop :=
  Traces (Send.step cfg) (fun _ _ _ => True) (Send.start cfg) past s

/-- The calls that were answered. -/
def called (past : List (Send.State × Send.Event)) : List Action :=
  past.reverse.flatMap fun p => calling p.1.phase

theorem called_cons : called ((s, e) :: past) =
    called past ++ calling s.phase := by
  rw [called, called, List.reverse_cons, List.flatMap_append,
    List.flatMap_singleton]

/-- `send` goes through a run, and its calls are those of the run and the
one it waits for. -/
theorem sendFrom_traces (h : SendRun cfg past s) (answers : List Send.Event) :
    ∃ past' t, SendRun cfg past' t ∧
      called past ++ (sendFrom cfg s answers).done =
        called past' ++ calling t.phase ∧
      (sendFrom cfg s answers).result = outcome t.phase := by
  induction answers generalizing s past with
  | nil => exact ⟨past, s, h, rfl, rfl⟩
  | cons e answers ih =>
      rw [sendFrom]
      cases hse : Send.step cfg s e with
      | none => exact ⟨past, s, h, rfl, rfl⟩
      | some t =>
          obtain ⟨past', u, hu, hcalls, hr⟩ := ih (.step e h trivial hse)
          refine ⟨past', u, hu, ?_, hr⟩
          rw [← hcalls, called_cons, List.append_assoc]

/-- As long as the job is not answered, they are `Reserve` calls. -/
theorem called_eq (h : SendRun cfg past s) (hs : s.answered = false) :
    called past = (Send.asked past).map .reserve := by
  refine h.invariant (P := fun past s => s.answered = false →
    called past = (Send.asked past).map .reserve) (fun _ => rfl) ?_ hs
  intro past s e t ih _ hse ht
  rw [Send.asked_cons, List.map_append, called_cons]
  cases e with
  | reserve status answer =>
      obtain ⟨server, rest, hp, -⟩ := Send.reserve_cases hse
      rw [ih (by rw [Send.State.answered, hp]), hp, Send.asking, hp]
      rfl
  | clock late =>
      have hp : s.phase = .roundOver := by
        simp only [Send.step] at hse
        split at hse
        · assumption
        · cases hse
      rw [ih (by rw [Send.State.answered, hp]), hp]
      rfl
  | distribute status answer =>
      simp only [Send.step] at hse
      split at hse
      · cases hse
        cases ht
      · cases hse

/-- What is being sent is the client's job. -/
theorem request_eq (h : SendRun cfg past s) {stub : Str}
    {request : CompileRequest} (hp : s.phase = .distributing stub request) :
    ∃ uuid, request = cfg.job.compileRequest uuid := by
  cases h with
  | start =>
      have hs := Send.isSearching_nextServer ⟨[], true, .roundOver⟩ cfg.servers
      rw [Send.start] at hp
      rw [hp] at hs
      cases hs
  | step e _ _ hse =>
      rcases Send.step_searching hse with hs | ⟨stub', uuid, heq⟩ |
        ⟨_, _, _, _, -, -, heq⟩
      · rw [hp] at hs
        cases hs
      · rw [hp] at heq
        cases heq
        exact ⟨uuid, rfl⟩
      · rw [hp] at heq
        cases heq

/-- `send` has asked some servers, in its rounds, and has no answer. -/
def Asks (servers : List Str) (as : List Action)
    (r : Except Stop CompileAnswer) : Prop :=
  (∃ n k, as = (Send.inRounds servers n k).map .reserve) ∧ ∀ x, r ≠ .ok x

/-- And then it has sent the job, to the server asked last. -/
def Sends (servers : List Str) (job : Send.Job) (as : List Action) : Prop :=
  ∃ n k stub uuid, (servers.take k).getLast? = some stub ∧
    as = (Send.inRounds servers n k).map .reserve ++
      [.distribute stub (job.compileRequest uuid)]

theorem called_cases (h : SendRun cfg past s) :
    Asks cfg.servers (called past ++ calling s.phase) (outcome s.phase) ∨
      Sends cfg.servers cfg.job (called past ++ calling s.phase) := by
  obtain ⟨k, hk⟩ := Send.Rounds.of_traces h
  have hplace := hk.place
  unfold Send.Place at hplace
  cases hp : s.phase with
  | reserving server rest =>
      rw [hp] at hplace
      refine .inl ⟨⟨Send.rounds past, k + 1, ?_⟩, by simp [outcome]⟩
      have htake : cfg.servers.take (k + 1) =
          cfg.servers.take k ++ [server] := by
        rw [List.take_add_one, ← List.head?_drop, hplace.1]
        rfl
      rw [called_eq h (by rw [Send.State.answered, hp]), hk.asked,
        Send.inRounds, Send.inRounds, htake, ← List.append_assoc,
        List.map_append]
      simp [calling]
  | roundOver | gaveUp =>
      refine .inl ⟨⟨Send.rounds past, k, ?_⟩, by simp [outcome]⟩
      rw [called_eq h (by rw [Send.State.answered, hp]), hk.asked]
      exact List.append_nil _
  | distributing stub request =>
      rw [hp] at hplace
      obtain ⟨uuid, rfl⟩ := request_eq h hp
      refine .inr ⟨Send.rounds past, k, stub, uuid, hplace, ?_⟩
      rw [called_eq h (by rw [Send.State.answered, hp]), hk.asked]
      rfl
  | done result =>
      rw [hp] at hplace
      obtain ⟨s', stub, request, status, answer, before, rfl, hp', hlast⟩ :=
        hplace
      have hbefore : SendRun cfg before s' := by
        cases h
        assumption
      obtain ⟨uuid, rfl⟩ := request_eq hbefore hp'
      refine .inr ⟨Send.rounds before, k, stub, uuid, hlast, ?_⟩
      have hasked : Send.asked before =
          Send.inRounds cfg.servers (Send.rounds before) k := by
        have hall := hk.asked
        rw [Send.asked_cons, Send.rounds_cons] at hall
        simpa [Send.asking, Send.Event.again] using hall
      rw [called_cons, hp', called_eq hbefore
        (by rw [Send.State.answered, hp']), hasked]
      exact List.append_nil _

/-- `Client::send` asks its servers in rounds, and sends the job once at
most, to the one asked last, and last of all. -/
theorem send_spec (w : World) (servers : List Str) (job : Send.Job) :
    (send w servers job).Ensures fun as r =>
      Asks servers as r ∨ Sends servers job as := by
  have hstart : SendRun ⟨servers, job, w.logsWarnings, w.logsErrors⟩ [] _ :=
    .start
  obtain ⟨past, s, hs, hdone, hr⟩ := sendFrom_traces hstart w.answers
  have hcases := called_cases hs
  rw [← hdone, ← hr] at hcases
  exact hcases

/-- `send` is the run of its answers. -/
theorem sendFrom_result (h : runList (Send.step cfg) s answers = some t) :
    (sendFrom cfg s answers).result = outcome t.phase := by
  induction answers generalizing s with
  | nil =>
      cases h
      rfl
  | cons e answers ih =>
      obtain ⟨u, hse, hrest⟩ := Option.bind_eq_some_iff.mp h
      rw [sendFrom, hse]
      exact ih hrest

end

-- ================================================================ the course

/-- What there is once the preprocessor has run. -/
structure Prepared (w : World) (argv0 : Arg) (args : List Arg) where
  compiler : Arg
  cwd : Str
  p : Parser
  preprocessed : ProcessHelper
  content : Str
  isCompiler : (argv0 :: args)[compilerPos argv0]? = some compiler
  isCwd : w.currentPath = .ok cwd
  parsed : parse w.fs w.depth
    ((argv0 :: args).drop (compilerPos argv0 + 1)) = .ok p
  distributes : p.canDistribute = some true
  ran : w.run (preprocessor w.m w.buildTarget compiler)
    (preprocessorArgs (mapCompiler (stem compiler)) w.buildTarget p) [] =
      .ok preprocessed
  compressed : compressor w.lib w.compressionType w.compressionLevel
    preprocessed.stdout = .ok content

namespace Prepared

/-- The job that is made of it. -/
def job (P : Prepared w argv0 args) : Send.Job :=
  Send.jobOf (stem P.compiler) w.buildTarget P.p w.compressionType P.content
    P.cwd

/-- What has been done by then. -/
def actions (P : Prepared w argv0 args) : List Action :=
  .process (preprocessor w.m w.buildTarget P.compiler)
    (preprocessorArgs (mapCompiler (stem P.compiler)) w.buildTarget P.p) []
      :: printed .cerr P.preprocessed.stderr

/-- The preprocessor ended well, and these are the servers. -/
def Connects (P : Prepared w argv0 args) (servers : List Str) : Prop :=
  P.preprocessed.returnCode = 0 ∧ w.servers P.job.compilerName = .ok servers

end Prepared

/-- The one process of `func`: the compiler of the command line, with the
arguments it was parsed to, as a preprocessor. -/
def Preprocesses (w : World) (argv0 : Arg) (args : List Arg)
    (a : Action) : Prop :=
  ∃ compiler p, (argv0 :: args)[compilerPos argv0]? = some compiler ∧
    parse w.fs w.depth
      ((argv0 :: args).drop (compilerPos argv0 + 1)) = .ok p ∧
    a = .process (preprocessor w.m w.buildTarget compiler)
      (preprocessorArgs (mapCompiler (stem compiler)) w.buildTarget p) []

/-- What is printed of an answer. -/
def messages (answer : CompileAnswer) : List Action :=
  printed .cout answer.stderr ++ printed .cout answer.stdout

/-- The ways `func` can go. -/
inductive Course (w : World) (argv0 : Arg) (args : List Arg) :
    List Action → Except Stop Int32 → Prop
  | idle : Course w argv0 args [] (.ok (-1))
  | stopped (stop : Stop) : Course w argv0 args [] (.error stop)
  | unprepared (a : Action) (e : Exception) : Preprocesses w argv0 args a →
      Course w argv0 args [a] (escaped e)
  | diagnosed (P : Prepared w argv0 args) :
      P.preprocessed.returnCode ≠ 0 →
      Course w argv0 args P.actions (.ok P.preprocessed.returnCode)
  | unconnected (P : Prepared w argv0 args) (e : Exception) :
      P.preprocessed.returnCode = 0 →
      Course w argv0 args (P.actions ++ [.query P.job.compilerName])
        (escaped e)
  | unanswered (P : Prepared w argv0 args) (servers : List Str)
      (stop : Stop) : P.Connects servers →
      (send w servers P.job).result = .error stop →
      Course w argv0 args
        (P.actions ++ .query P.job.compilerName :: (send w servers P.job).done)
        (.error stop)
  | unreadable (P : Prepared w argv0 args) (servers : List Str)
      (answer : CompileAnswer) (e : Exception) : P.Connects servers →
      (send w servers P.job).result = .ok answer →
      receive w.lib w.outfile answer = .error e →
      Course w argv0 args
        (P.actions ++ .query P.job.compilerName :: (send w servers P.job).done)
        (escaped e)
  | answered (P : Prepared w argv0 args) (servers : List Str)
      (answer : CompileAnswer) (remote : Remote) : P.Connects servers →
      (send w servers P.job).result = .ok answer →
      receive w.lib w.outfile answer = .ok remote →
      Course w argv0 args
        (P.actions ++ .query P.job.compilerName ::
          ((send w servers P.job).done ++
            (wrote P.p.outfile remote.written ++ messages answer)))
        (.ok remote.returnCode)

/-- What is printed of a remote compile, behind what is written. -/
theorem report_eq (outfile : Str) (remote : Remote) :
    report outfile remote =
      ⟨wrote outfile remote.written ++ (printed .cout remote.stderr ++
        printed .cout remote.stdout), .ok remote.returnCode⟩ := by
  unfold report
  simp only [writeFile_eq, print_eq]
  rw [Acts.bind_of_ok rfl, Acts.bind_of_ok rfl, Acts.bind_of_ok rfl]
  show Acts.mk (wrote outfile remote.written ++
    (printed .cout remote.stderr ++ (printed .cout remote.stdout ++ [])))
    (.ok remote.returnCode) = _
  rw [List.append_nil]

/-- What is received of an answer is what it carries. -/
theorem carries_of_receive {remote : Remote}
    (h : receive w.lib w.outfile answer = .ok remote) :
    remote.stderr = answer.stderr ∧ remote.stdout = answer.stdout ∧
      remote.returnCode = answer.returnCode := by
  unfold receive at h
  split at h
  · cases h
  · cases h
    exact ⟨rfl, rfl, rfl⟩

/-- The end of `func`. -/
theorem conclude_spec (w : World) (outfile : Str) (answer : CompileAnswer) :
    (conclude w outfile answer).Ensures fun as r =>
      (∃ e, receive w.lib w.outfile answer = .error e ∧ as = [] ∧
        r = escaped e) ∨
      ∃ remote, receive w.lib w.outfile answer = .ok remote ∧
        as = wrote outfile remote.written ++ messages answer ∧
        r = .ok remote.returnCode := by
  unfold conclude
  cases hr : receive w.lib w.outfile answer with
  | error e => exact .inl ⟨e, rfl, rfl, rfl⟩
  | ok remote =>
      obtain ⟨hstderr, hstdout, -⟩ := carries_of_receive hr
      refine .inr ⟨remote, rfl, ?_⟩
      show (report outfile remote).done = _ ∧
        (report outfile remote).result = _
      rw [report_eq, messages, hstderr, hstdout]
      exact ⟨rfl, rfl⟩

/-- Once there is a job. -/
theorem compileRemotely_spec (P : Prepared w argv0 args)
    (hzero : P.preprocessed.returnCode = 0) :
    (compileRemotely w P.p P.job).Ensures fun as r =>
      Course w argv0 args (P.actions ++ as) r := by
  unfold compileRemotely
  rw [Acts.ensures_bind, Acts.ensures_act]
  refine ⟨nofun, fun _ _ => ?_⟩
  rw [Acts.ensures_bind, ensures_escaping]
  refine ⟨fun e he => ⟨fun e' h => ?_, nofun⟩, fun servers hservers =>
    ⟨nofun, fun servers' h => ?_⟩⟩
  · cases h
    exact .unconnected P e hzero
  · cases h
    rw [Acts.ensures_bind]
    refine ⟨fun stop hstop => ?_, fun answer hanswer => ?_⟩
    · exact .unanswered P servers stop ⟨hzero, hservers⟩ hstop
    · rcases conclude_spec w P.p.outfile answer with ⟨e, he, hdone, hr⟩ |
        ⟨remote, hremote, hdone, hr⟩
      · have h := Course.unreadable P servers answer e ⟨hzero, hservers⟩
          hanswer he
        unfold Acts.Ensures
        rw [hdone, hr]
        simpa using h
      · have h := Course.answered P servers answer remote ⟨hzero, hservers⟩
          hanswer hremote
        unfold Acts.Ensures
        rw [hdone, hr]
        simpa using h

/-- Once the command line is parsed. -/
theorem distribute_spec {cwd : Str} {p : Parser}
    (hcompiler : (argv0 :: args)[compilerPos argv0]? = some compiler)
    (hcwd : w.currentPath = .ok cwd)
    (hparse : parse w.fs w.depth
      ((argv0 :: args).drop (compilerPos argv0 + 1)) = .ok p)
    (hcan : p.canDistribute = some true) :
    (distribute w compiler cwd p).Ensures (Course w argv0 args) := by
  unfold distribute
  simp only [print_eq]
  rw [Acts.ensures_bind]
  refine (processHelper_spec ..).mono ?_
  rintro as r (⟨e, -, rfl, hdone⟩ | ⟨preprocessed, hran, rfl, rfl⟩)
  · refine ⟨fun e' h => ?_, nofun⟩
    cases h
    rcases hdone with rfl | rfl
    · exact .stopped _
    · exact .unprepared _ _ ⟨_, _, hcompiler, hparse, rfl⟩
  · refine ⟨nofun, fun _ h => ?_⟩
    cases h
    rw [Acts.ensures_bind, ensures_escaping]
    refine ⟨fun e he => ⟨fun e' h => ?_, nofun⟩, fun content hcontent =>
      ⟨nofun, fun _ h => ?_⟩⟩
    · cases h
      exact .unprepared _ _ ⟨_, _, hcompiler, hparse, rfl⟩
    · cases h
      let P : Prepared w argv0 args := ⟨compiler, cwd, p, preprocessed,
        content, hcompiler, hcwd, hparse, hcan, hran, hcontent⟩
      rw [Acts.ensures_bind]
      refine ⟨nofun, fun _ _ => ?_⟩
      by_cases hzero : preprocessed.returnCode = 0
      · rw [if_neg (not_not_intro hzero)]
        exact compileRemotely_spec P hzero
      · rw [if_pos hzero]
        have h := Course.diagnosed P hzero
        rw [Acts.ensures_pure]
        simpa [P, Prepared.actions] using h

/-- The parser ends, or `func` does. -/
theorem parser_spec (w : World) (compilerArgs : List Arg) :
    (parser w compilerArgs).Ensures fun as r => as = [] ∧
      ((∃ stop, r = .error stop) ∨
        ∃ p, parse w.fs w.depth compilerArgs = .ok p ∧ r = .ok p) := by
  unfold parser
  split
  case h_1 p hp => exact ⟨rfl, .inr ⟨p, hp, rfl⟩⟩
  all_goals exact ⟨rfl, .inl ⟨_, rfl⟩⟩

theorem func_course (w : World) (argv0 : Arg) (args : List Arg) :
    (func w argv0 args).Ensures (Course w argv0 args) := by
  unfold func
  split
  · exact .idle
  split
  · exact .stopped _
  case h_2 compiler hcompiler =>
    rw [Acts.ensures_bind, ensures_escaping]
    refine ⟨fun e he => ⟨fun e' h => ?_, nofun⟩, fun cwd hcwd =>
      ⟨nofun, fun _ h => ?_⟩⟩
    · cases h
      exact .stopped _
    · cases h
      rw [Acts.ensures_bind]
      refine (parser_spec ..).mono ?_
      rintro as r ⟨rfl, ⟨stop, rfl⟩ | ⟨p, hp, rfl⟩⟩
      · exact ⟨fun e h => .stopped _, nofun⟩
      · refine ⟨nofun, fun _ h => ?_⟩
        cases h
        split
        · exact distribute_spec hcompiler hcwd hp ‹_›
        · exact .stopped _

theorem processHelper_of_run {h : ProcessHelper}
    (hrun : w.run program args cin = .ok h) :
    processHelper w program args cin =
      ⟨[.process program args cin], .ok h⟩ := by
  rcases processHelper_spec w program args cin with ⟨e, he, -⟩ |
    ⟨h', hrun', hr, hdone⟩
  · rw [hrun] at he
    cases he
  · rw [hrun] at hrun'
    cases hrun'
    rw [← hr, ← hdone]

/-- With everything prepared, `distribute` gets as far as its job. -/
theorem distribute_prepared (P : Prepared w argv0 args)
    (hzero : P.preprocessed.returnCode = 0) :
    distribute w P.compiler P.cwd P.p =
      ⟨P.actions ++ (compileRemotely w P.p P.job).done,
        (compileRemotely w P.p P.job).result⟩ := by
  rw [distribute, processHelper_of_run P.ran, Acts.bind_of_ok rfl,
    P.compressed]
  simp only [print_eq, hzero, ne_eq, not_true_eq_false, if_false]
  rfl

/-- And so does `func`. -/
theorem func_prepared (P : Prepared w argv0 args)
    (hzero : P.preprocessed.returnCode = 0) :
    func w argv0 args =
      ⟨P.actions ++ (compileRemotely w P.p P.job).done,
        (compileRemotely w P.p P.job).result⟩ := by
  have hargs : ¬(args = [] ∧
      samePath (stem argv0) "distplusplus".toList = true) := by
    intro hboth
    obtain ⟨hlt, -⟩ := List.getElem?_eq_some_iff.mp P.isCompiler
    rw [compilerPos, if_pos hboth.2, List.length_cons, hboth.1] at hlt
    exact absurd hlt (Nat.lt_irrefl _)
  have hparser : parser w ((argv0 :: args).drop (compilerPos argv0 + 1)) =
      pure P.p := by
    rw [parser, P.parsed]
  rw [func, if_neg hargs, P.isCompiler]
  dsimp only
  rw [P.isCwd, hparser]
  show (if P.p.canDistribute = some true then _ else _) = _
  rw [if_pos P.distributes, distribute_prepared P hzero]

-- ==================================================================== main

/-- What the handler does: nothing, or it starts the local compiler and
prints what that wrote. -/
inductive Locally (w : World) (fallback : Fallback) :
    List Action → Except Stop Int32 → Prop
  | nothing (r : Except Stop Int32) : Locally w fallback [] r
  | fails {program : Str} {args : List Arg} {cin : Str} (e : Exception) :
      fallback = .starts program args cin →
      w.run program args cin = .error e →
      Locally w fallback [.process program args cin] (escaped e)
  | runs {program : Str} {args : List Arg} {cin : Str}
      (h : ProcessHelper) : fallback = .starts program args cin →
      w.run program args cin = .ok h →
      Locally w fallback
        [.process program args cin, .cerr h.stderr, .cout h.stdout]
        (.ok h.returnCode)

theorem localInvocation_spec (w : World) (fallback : Fallback) :
    (localInvocation w fallback).Ensures (Locally w fallback) := by
  cases fallback with
  | disabled | notFound | filesystemError | outOfRange => exact .nothing _
  | starts program args cin =>
      unfold localInvocation
      rw [Acts.ensures_bind]
      refine (processHelper_spec ..).mono ?_
      rintro as r (⟨e, he, rfl, rfl | rfl⟩ | ⟨h, hrun, rfl, rfl⟩)
      · refine ⟨fun e' h => ?_, nofun⟩
        exact .nothing _
      · refine ⟨fun e' h => ?_, nofun⟩
        cases h
        exact .fails e rfl he
      · refine ⟨nofun, fun _ h' => ?_⟩
        cases h'
        exact .runs h rfl hrun

/-- `main` is a course of `func`, and the handler where it falls back. -/
inductive MainCourse (w : World) (argv0 : Arg) (args : List Arg) :
    List Action → Except Stop Int32 → Prop
  | through {as : List Action} {r : Except Stop Int32} :
      Course w argv0 args as r → r ≠ .error (.thrown .fallbackSignal) →
      MainCourse w argv0 args as r
  | handled {before after : List Action} {r : Except Stop Int32}
      (cin : Str) :
      Course w argv0 args before (.error (.thrown .fallbackSignal)) →
      Locally w (runFallback w.m w.fallback cin (argv0 :: args)) after r →
      MainCourse w argv0 args (before ++ after) r

/-- With nothing on standard input, `main` is `func` and its handler. -/
theorem main_started
    (h : (stdinEmpty w.platform w.first w.stdin).1 = true) (argv0 : Arg)
    (args : List Arg) : main w argv0 args =
      (func w argv0 args).handle (caught (localInvocation w
        (runFallback w.m w.fallback (fallbackInput w.platform w.second
          (stdinEmpty w.platform w.first w.stdin).2) (argv0 :: args)))) := by
  unfold main
  dsimp only
  rw [h]
  rfl

theorem caught_eq_none {handler : Program Int32} {stop : Stop}
    (h : stop ≠ .thrown .fallbackSignal) : caught handler stop = none := by
  cases stop with
  | dies | waiting => rfl
  | thrown t =>
      cases t with
      | fallbackSignal => exact absurd rfl h
      | exception e => rfl

theorem main_course (w : World) (argv0 : Arg) (args : List Arg) :
    (main w argv0 args).Ensures (MainCourse w argv0 args) := by
  unfold main
  obtain ⟨empty, s⟩ := stdinEmpty w.platform w.first w.stdin
  dsimp only
  have hcourse : (if empty then func w argv0 args else throwFallback).Ensures
      (Course w argv0 args) := by
    cases empty with
    | true => exact func_course ..
    | false => exact .stopped _
  generalize (if empty then func w argv0 args else throwFallback) = x
    at hcourse
  unfold Acts.Ensures at hcourse
  cases hr : x.result with
  | ok code =>
      rw [hr] at hcourse
      rw [Acts.handle_of_ok hr, Acts.Ensures, hr]
      exact .through hcourse (by simp)
  | error stop =>
      rw [hr] at hcourse
      by_cases hstop : stop = .thrown .fallbackSignal
      · subst hstop
        rw [Acts.handle_of_some hr rfl]
        exact .handled _ hcourse (localInvocation_spec ..)
      · rw [Acts.handle_of_none hr (caught_eq_none hstop), Acts.Ensures, hr]
        exact .through hcourse (by simpa using hstop)

end Distplusplus.Client.Main
