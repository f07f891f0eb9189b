/-
Where the two views of the client's end meet.

`Client.main` says how a client ends, given how `func` does: with a remote
result, in the handler, or by an exception. `Main.main` is the whole client,
a program that acts. `carryOut` is the program an ending stands for.

- `main_ending`: a client that has made a job ends as `Client.main` says,
  behind what it did for the job.
- `main_stdin`: one that finds something on standard input ends so from its
  start.
- `main_console`: what the caller sees of a client that has made a job is
  the console of its ending, behind the diagnostics of the preprocessor.
-/
import Distplusplus.Client.Proofs.Visible

namespace Distplusplus.Client.Main

open Lib Common

variable {w : World} {argv0 : Arg} {args : List Arg}
variable {p : Parser} {job : Send.Job} {servers : List Str} {outfile : Str}

/-- The end of `func`, which may be an exception. -/
def returned (outfile : Str) : Except Thrown Remote → Program Int32
  | .ok remote => report outfile remote
  | .error thrown => Acts.stop (.thrown thrown)

/-- The program that an ending is. -/
def carryOut (w : World) (outfile : Str) : Ending → Program Int32
  | .remote result => report outfile result
  | .fallback fallback => localInvocation w fallback
  | .terminate e => Acts.stop (.thrown (.exception e))

-- ==================================================================== main

theorem conclude_eq (w : World) (outfile : Str) (answer : CompileAnswer) :
    conclude w outfile answer =
      returned outfile (concluded w.lib w.outfile (.ok answer)) := by
  unfold conclude concluded
  dsimp only
  cases receive w.lib w.outfile answer with
  | error e => exact Acts.bind_of_error rfl
  | ok remote => exact Acts.bind_of_ok rfl

/-- What `func` does with the end of `send`. -/
theorem compileRemotely_returned {r : Except Thrown CompileAnswer}
    (hservers : w.servers job.compilerName = .ok servers)
    (hsend : (send w servers job).result = r.mapError .thrown) :
    compileRemotely w p job =
      ⟨.query job.compilerName :: ((send w servers job).done ++
          (returned p.outfile (concluded w.lib w.outfile r)).done),
        (returned p.outfile (concluded w.lib w.outfile r)).result⟩ := by
  rw [compileRemotely, Acts.bind_of_ok rfl, hservers]
  show Acts.mk (_ :: (send w servers job >>= _).done)
    (send w servers job >>= _).result = _
  cases r with
  | error thrown =>
      rw [Acts.bind_of_error hsend]
      exact congrArg₂ Acts.mk
        (congrArg _ (List.append_nil _).symm) rfl
  | ok answer => rw [Acts.bind_of_ok hsend, conclude_eq]

/-- The handler takes the end of `func` to the end of `main`. -/
theorem handle_returned (as : List Action) (fallback : Bool) (cin : Str)
    (argv : List Arg) (r : Except Thrown Remote) :
    Acts.handle ⟨as ++ (returned outfile r).done, (returned outfile r).result⟩
        (caught (localInvocation w (runFallback w.m fallback cin argv))) =
      ⟨as ++ (carryOut w outfile (mainEnd w.m fallback cin argv r)).done,
        (carryOut w outfile (mainEnd w.m fallback cin argv r)).result⟩ := by
  cases r with
  | ok remote =>
      rw [Acts.handle_of_ok (b := remote.returnCode)]
      · rfl
      · show (report outfile remote).result = _
        rw [report_eq]
  | error thrown =>
      cases thrown with
      | fallbackSignal =>
          rw [Acts.handle_of_some rfl rfl]
          show Acts.mk ((as ++ []) ++ _) _ = _
          rw [List.append_nil]
          rfl
      | exception e =>
          rw [Acts.handle_of_none rfl rfl]
          rfl

/-- With nothing on standard input, it is `func` that decides. -/
theorem main_of_started {P : Platform} {m : Local} {fallback : Bool}
    {first second : Found} {s : Stdin}
    (h : (stdinEmpty P first s).1 = true) (argv : List Arg)
    (func : Except Thrown Remote) :
    Client.main P m fallback first second func argv s =
      mainEnd m fallback (fallbackInput P second (stdinEmpty P first s).2)
        argv func := by
  unfold Client.main
  split
  · rename_i hempty
    rw [hempty]
  · rename_i hempty
    rw [hempty] at h
    cases h

/-- A client that has made a job has run the preprocessor and asked the
servers, and ends as they let it. -/
theorem main_ending (P : Prepared w argv0 args)
    (hstarted : (stdinEmpty w.platform w.first w.stdin).1 = true)
    (hconnects : P.Connects servers) {r : Except Thrown CompileAnswer}
    (hsend : (send w servers P.job).result = r.mapError .thrown) :
    main w argv0 args =
      ⟨(P.actions ++ .query P.job.compilerName ::
            (send w servers P.job).done) ++
          (carryOut w P.p.outfile (Client.main w.platform w.m w.fallback
            w.first w.second (concluded w.lib w.outfile r) (argv0 :: args)
            w.stdin)).done,
        (carryOut w P.p.outfile (Client.main w.platform w.m w.fallback
          w.first w.second (concluded w.lib w.outfile r) (argv0 :: args)
          w.stdin)).result⟩ := by
  have hfunc := func_prepared P hconnects.1
  rw [compileRemotely_returned hconnects.2 hsend] at hfunc
  simp only [← List.cons_append, ← List.append_assoc] at hfunc
  rw [main_started hstarted, hfunc, main_of_started hstarted,
    handle_returned]

/-- A client that finds something on standard input does not look at its
command line. -/
theorem main_stdin
    (hstopped : (stdinEmpty w.platform w.first w.stdin).1 = false)
    (func : Except Thrown Remote) : main w argv0 args =
      carryOut w outfile (Client.main w.platform w.m w.fallback w.first
        w.second func (argv0 :: args) w.stdin) := by
  unfold main Client.main
  generalize stdinEmpty w.platform w.first w.stdin = found at hstopped
  obtain ⟨empty, s⟩ := found
  cases hstopped
  exact Acts.handle_of_some rfl rfl

-- ================================================================= console

/-- What an action prints on standard output. -/
def Action.toCout : Action → Str
  | .cout text => text
  | _ => []

/-- What it prints on standard error. -/
def Action.toCerr : Action → Str
  | .cerr text => text
  | _ => []

/-- What the caller sees of a program, if it ends. -/
def console (x : Program Int32) : Option Console :=
  match x.result with
  | .ok code => some ⟨x.done.flatMap Action.toCout,
      x.done.flatMap Action.toCerr, code⟩
  | .error _ => none

theorem flatMap_printed (f : Action → Str) {stream : Str → Action}
    (hempty : f (stream []) = []) (text : Str) :
    (printed stream text).flatMap f = f (stream text) := by
  unfold printed
  split_ifs with h
  · rw [h, hempty]
    rfl
  · exact List.append_nil _

/-- The program of an ending prints and returns what the caller sees of
it. -/
theorem console_carryOut (w : World) (outfile : Str) (ending : Ending) :
    console (carryOut w outfile ending) = ending.console w.run := by
  cases ending with
  | terminate e => rfl
  | remote remote =>
      show console (report outfile remote) = some (printRemote remote)
      rw [report_eq]
      simp only [console, List.flatMap_append, printRemote, Remote.cout]
      have hcout : ∀ text, (printed .cout text).flatMap Action.toCout =
          text := flatMap_printed _ rfl
      have hcerr : ∀ text, (printed .cout text).flatMap Action.toCerr = [] :=
        flatMap_printed _ rfl
      rw [hcout, hcout, hcerr, hcerr]
      cases remote.written <;> rfl
  | fallback fallback =>
      cases fallback with
      | disabled | notFound | filesystemError | outOfRange => rfl
      | starts program cargs cin =>
          have hspec := processHelper_spec w program cargs cin
          show console (processHelper w program cargs cin >>= _) =
            Fallback.console w.run (.starts program cargs cin)
          unfold Fallback.console
          dsimp only
          rcases hspec with ⟨e, he, hr, -⟩ | ⟨h, hrun, hr, hdone⟩
          · rw [Acts.bind_of_error hr, he]
            rfl
          · rw [Acts.bind_of_ok hr, hdone, hrun]
            simp [console, Acts.act, Action.toCout, Action.toCerr, printLocal,
              bind, Acts.bind, pure]

/-- Up to its end a client that has made a job prints the diagnostics. -/
theorem console_behind (P : Prepared w argv0 args) (x : Program Int32) :
    console ⟨(P.actions ++ .query P.job.compilerName ::
        (send w servers P.job).done) ++ x.done, x.result⟩ =
      (console x).map fun seen =>
        { seen with cerr := P.preprocessed.stderr ++ seen.cerr } := by
  have hcout : (printed .cerr P.preprocessed.stderr).flatMap
      Action.toCout = [] := flatMap_printed _ rfl _
  have hcerr : (printed .cerr P.preprocessed.stderr).flatMap
      Action.toCerr = P.preprocessed.stderr := flatMap_printed _ rfl _
  have hsilent : ∀ a ∈ (send w servers P.job).done,
      a.toCout = [] ∧ a.toCerr = [] := by
    intro a ha
    rcases mem_send ha with ⟨_, -, rfl⟩ | ⟨_, -, _, rfl⟩ <;>
      exact ⟨rfl, rfl⟩
  have hcout' := List.flatMap_eq_nil_iff.mpr fun a ha => (hsilent a ha).1
  have hcerr' := List.flatMap_eq_nil_iff.mpr fun a ha => (hsilent a ha).2
  unfold console
  cases x.result with
  | error stop => rfl
  | ok code =>
      simp only [Prepared.actions, List.cons_append, List.flatMap_cons,
        List.flatMap_append, Option.map_some, hcout, hcerr, hcout', hcerr',
        Action.toCout, Action.toCerr, List.nil_append, List.append_nil]

/-- The caller of a client that has made a job sees the diagnostics of the
preprocessor, and then the end of the client. -/
theorem main_console (P : Prepared w argv0 args)
    (hstarted : (stdinEmpty w.platform w.first w.stdin).1 = true)
    (hconnects : P.Connects servers) {r : Except Thrown CompileAnswer}
    (hsend : (send w servers P.job).result = r.mapError .thrown) :
    console (main w argv0 args) =
      ((Client.main w.platform w.m w.fallback w.first w.second
        (concluded w.lib w.outfile r) (argv0 :: args) w.stdin).console
          w.run).map fun seen =>
        { seen with cerr := P.preprocessed.stderr ++ seen.cerr } := by
  rw [main_ending P hstarted hconnects hsend, console_behind,
    console_carryOut]

end Distplusplus.Client.Main
