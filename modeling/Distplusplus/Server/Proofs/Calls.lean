/-
What can be said of a call from the outside.

The other side of a call sees its answer; the cells and the log say what is
behind it.

- `Issued`: a uuid that a `Reserve` call was given is its own, and one that
  it has answered with was inserted.
- `Presented`: who presented a uuid is a `Distribute` call with that uuid,
  past its lookup.
- `Compiled`: an `OK` from `Distribute` comes from the compiler. What it
  was run on and what became of its output is `Trail`, which is about the
  body alone and holds of each of its steps.
-/
import Distplusplus.Server.Proofs.Gate
import Distplusplus.Server.Proofs.Survival

namespace Distplusplus.Server

open Lib Common

variable {cfg : Config} {s t : State} {e : Event} {i j : Nat} {c c' : Call}
variable {calls : List Call} {log : List Note} {uuid : Str} {clock : Int}
variable {host : Host} {request : CompileRequest} {phase : Phase}
variable {Q : State → Event → Prop}

-- =================================================================== uuids

/-- The uuid a `Reserve` call has. -/
def Call.holds : Call → Option Str
  | .reserve (.insert uuid) | .reserve (.defuse uuid) => some uuid
  | .reserve (.returned _ answer) => answer.uuid
  | _ => none

/-- What a cell's uuid says about the log. -/
def Known (log : List Note) : Call → Prop
  | .reserve (.insert uuid) => uuid ∈ generated log
  | .reserve (.defuse uuid) => uuid ∈ generated log ∧
      ∃ r ∈ inserted log, r.uuid = uuid
  | .reserve (.returned status answer) =>
      (status.code = .RESOURCE_EXHAUSTED ∧ answer = ⟨false, none⟩) ∨
      (status = Status.ok ∧ ∃ uuid, answer = ⟨true, some uuid⟩ ∧
        uuid ∈ generated log ∧ ∃ r ∈ inserted log, r.uuid = uuid)
  | _ => True

theorem Known.cons (h : Known log c) (note : Note) :
    Known (note :: log) c := by
  have hgen : ∀ {uuid}, uuid ∈ generated log →
      uuid ∈ generated (note :: log) := fun hmem => by
    rw [generated, List.filterMap_cons]
    split
    · exact hmem
    · exact List.mem_cons_of_mem _ hmem
  have hins : ∀ {uuid}, (∃ r ∈ inserted log, r.uuid = uuid) →
      ∃ r ∈ inserted (note :: log), r.uuid = uuid := fun hex => by
    obtain ⟨r, hr, hu⟩ := hex
    refine ⟨r, ?_, hu⟩
    rw [inserted, List.filterMap_cons]
    split
    · exact hr
    · exact List.mem_cons_of_mem _ hr
  cases c with
  | distribute => trivial
  | reserve phase =>
      cases phase with
      | insert uuid => exact hgen h
      | defuse uuid => exact ⟨hgen h.1, hins h.2⟩
      | returned status answer =>
          refine h.imp_right fun hok => ?_
          obtain ⟨hs, uuid, ha, hg, hr⟩ := hok
          exact ⟨hs, uuid, ha, hgen hg, hins hr⟩
      | _ => trivial

theorem Known.callEffect (h : Known s.log c)
    (hc : CallEffect cfg s i e c c' t) : Known t.log c' := by
  cases hc with
  | quiet hq =>
      cases hq with
      | full => exact .inl ⟨rfl, rfl⟩
      | lost => exact .inl ⟨rfl, rfl⟩
      | defused uuid => exact .inr ⟨rfl, uuid, rfl, h⟩
      | _ => trivial
  | generate uuid => exact List.mem_cons_self
  | insert uuid =>
      refine ⟨h, ⟨uuid, s.clock⟩, List.mem_cons_self, rfl⟩
  | release hr => cases hr <;> trivial
  | _ => trivial

theorem Known.of_reaches (h : Reaches (step cfg) Q (State.start clock) s) :
    ∀ (i : Nat) (c : Call), s.calls[i]? = some c → Known s.log c := by
  refine h.invariant (P := fun s => ∀ (i : Nat) (c : Call),
    s.calls[i]? = some c → Known s.log c) (fun _ _ hc => by cases hc) ?_
  intro s e t hs _ hse
  refine (step_effect hse).cells (P := fun _ log c => Known log c)
    (fun _ _ note _ hp => hp.cons note) ?_
    (fun _ _ _ _ hp hc => hp.callEffect hc) hs
  intro _ _ c ha
  cases ha <;> trivial

/-- A uuid in a cell was generated. -/
theorem Known.generated (h : Known log c) (hu : c.holds = some uuid) :
    uuid ∈ Server.generated log := by
  cases c with
  | distribute => cases hu
  | reserve phase =>
      cases phase with
      | insert uuid' =>
          cases hu
          exact h
      | defuse uuid' =>
          cases hu
          exact h.1
      | returned status answer =>
          rcases h with ⟨-, rfl⟩ | ⟨-, uuid', rfl, hg, -⟩
          · cases hu
          · cases hu
            exact hg
      | _ => cases hu

/-- Two calls do not have the same uuid. -/
def Apart (calls : List Call) : Prop :=
  ∀ (i j : Nat) (c d : Call) (uuid : Str), calls[i]? = some c →
    calls[j]? = some d → c.holds = some uuid → d.holds = some uuid → i = j

/-- A call's step gives it a new uuid, or leaves it the one it has. -/
theorem CallEffect.holds_cases (hc : CallEffect cfg s i e c c' t) :
    (∃ uuid, e = .generate i (some uuid) ∧ c'.holds = some uuid) ∨
      ∀ uuid, c'.holds = some uuid → c.holds = some uuid := by
  cases hc with
  | generate uuid => exact .inl ⟨uuid, rfl, rfl⟩
  | insert => exact .inr fun _ h => h
  | quiet hq =>
      right
      cases hq with
      | defused uuid => exact fun _ h => h
      | _ =>
          intro uuid h
          cases h
  | release hr =>
      right
      intro uuid h
      cases hr <;> cases h
  | _ =>
      right
      intro uuid h
      cases h

theorem Apart.effect (h : Apart s.calls)
    (hknown : ∀ (i : Nat) (c : Call), s.calls[i]? = some c → Known s.log c)
    (hf : fresh s e = true) (he : Effect cfg s e t) : Apart t.calls := by
  cases he with
  | tick => exact h
  | requestStop => exact h
  | die => exact h
  | reaper hr => exact hr.calls_eq ▸ h
  | arrive ha =>
      intro i j c d uuid hi hj hci hdj
      rcases getElem?_append_one_cases hi with ⟨-, rfl⟩ | hi
      · cases ha <;> cases hci
      · rcases getElem?_append_one_cases hj with ⟨-, rfl⟩ | hj
        · cases ha <;> cases hdj
        · exact h i j c d uuid hi hj hci hdj
  | call cell hc =>
      rename_i k c₀ c₁ u
      -- a cell that has a uuid now had it, or is the call that was answered
      have back : ∀ (j : Nat) (d : Call) (uuid : Str),
          (u.setCall k c₁).calls[j]? = some d → d.holds = some uuid →
          (j = k ∧ e = .generate k (some uuid)) ∨
            ∃ d', s.calls[j]? = some d' ∧ d'.holds = some uuid := by
        intro j d uuid hj hd
        rw [State.setCall, hc.calls_eq] at hj
        rcases getElem?_set_cases cell hj with ⟨rfl, rfl⟩ | ⟨-, hold⟩
        · rcases hc.holds_cases with ⟨uuid', he, hu⟩ | hkeep
          · exact .inl ⟨rfl, by rw [he, Option.some.inj (hu.symm.trans hd)]⟩
          · exact .inr ⟨c₀, cell, hkeep uuid hd⟩
        · exact .inr ⟨d, hold, hd⟩
      have hnew : ∀ (j : Nat) (d : Call) (uuid : Str),
          e = .generate k (some uuid) → s.calls[j]? = some d →
          d.holds ≠ some uuid := by
        rintro j d uuid rfl hj hd
        exact of_decide_eq_true hf ((hknown j d hj).generated hd)
      intro i j c d uuid hi hj hci hdj
      rcases back i c uuid hi hci with ⟨rfl, he⟩ | ⟨c', hi', hc'⟩
      · rcases back j d uuid hj hdj with ⟨rfl, -⟩ | ⟨d', hj', hd'⟩
        · rfl
        · exact absurd hd' (hnew j d' uuid he hj')
      · rcases back j d uuid hj hdj with ⟨-, he⟩ | ⟨d', hj', hd'⟩
        · exact absurd hc' (hnew i c' uuid he hi')
        · exact h i j c' d' uuid hi' hj' hc' hd'

/-- Every state of a run with pairwise distinct uuids. -/
theorem Apart.of_reaches (hQ : ∀ s e, Q s e → fresh s e = true)
    (h : Reaches (step cfg) Q (State.start clock) s) : Apart s.calls := by
  refine h.invariant_with
    (I := fun s => ∀ (i : Nat) (c : Call), s.calls[i]? = some c →
      Known s.log c)
    (P := fun s => Apart s.calls) (fun s hs => Known.of_reaches hs)
    (fun _ _ _ _ _ hi => by cases hi) ?_
  intro s e t hknown hs hq hse
  exact hs.effect hknown (hQ s e hq) (step_effect hse)

-- =================================================================== lookups

/-- The call that wrote a note about a lookup. -/
def Note.presents : Note → Option (Nat × Str)
  | .presented call uuid _ _ => some (call, uuid)
  | _ => none

/-- Call `i` is a `Distribute` call with the uuid, past its lookup. -/
def LookedUp (calls : List Call) (i : Nat) (uuid : Str) : Prop :=
  ∃ host request phase, calls[i]? = some (.distribute host request phase) ∧
    request.uuid = uuid ∧ phase ≠ .lookup

/-- Who presented a uuid is such a call. -/
def Presented (calls : List Call) (log : List Note) : Prop :=
  ∀ note ∈ log, ∀ i uuid, note.presents = some (i, uuid) →
    LookedUp calls i uuid

/-- A call past its lookup stays there. -/
theorem LookedUp.setCall (h : LookedUp calls j uuid)
    (cell : calls[i]? = some c)
    (hkeep : ∀ host request phase, c = .distribute host request phase →
      phase ≠ .lookup → ∃ phase', c' = .distribute host request phase' ∧
        phase' ≠ .lookup) : LookedUp (calls.set i c') j uuid := by
  obtain ⟨host, request, phase, hj, hu, hne⟩ := h
  by_cases hij : i = j
  · subst hij
    obtain ⟨hi, -⟩ := List.getElem?_eq_some_iff.mp cell
    obtain ⟨phase', rfl, hne'⟩ :=
      hkeep host request phase (Option.some.inj (cell.symm.trans hj)) hne
    exact ⟨host, request, phase', List.getElem?_set_self hi, hu, hne'⟩
  · exact ⟨host, request, phase, by rwa [List.getElem?_set_ne hij], hu, hne⟩

theorem destroyAll_ne_lookup (nameMax : Nat)
    (files : List (Tempfile × List Str)) (exit : Exit) :
    destroyAll nameMax files exit ≠ .lookup := by
  rcases destroyAll_cases nameMax files exit with h | h <;> rw [h] <;> nofun

/-- No step of the body leads back to the lookup. -/
theorem distributeStep_ne_lookup (hne : phase ≠ .lookup) :
    distributeStep host request phase ≠ .lookup := by
  intro heq
  cases phase with
  | lookup => exact hne rfl
  | leave exit => cases exit <;> cases heq
  | returned => cases heq
  | terminate => cases heq
  | _ =>
      simp only [distributeStep] at heq
      split at heq <;>
        first | cases heq | exact destroyAll_ne_lookup _ _ _ heq

theorem CallEffect.keeps_looked (hc : CallEffect cfg s i e c c' t)
    (host : Host) (request : CompileRequest) (phase : Phase)
    (heq : c = .distribute host request phase) (hne : phase ≠ .lookup) :
    ∃ phase', c' = .distribute host request phase' ∧ phase' ≠ .lookup := by
  cases hc with
  | quiet hq =>
      cases hq with
      | body =>
          cases heq
          exact ⟨_, rfl, distributeStep_ne_lookup hne⟩
      | _ => cases heq
  | release hr =>
      cases hr with
      | unwind => cases heq
      | leave =>
          cases heq
          exact ⟨_, rfl, distributeStep_ne_lookup hne⟩
  | launch =>
      cases heq
      exact ⟨_, rfl, distributeStep_ne_lookup hne⟩
  | refuse =>
      cases heq
      exact absurd rfl hne
  | take =>
      cases heq
      exact absurd rfl hne
  | _ => cases heq

theorem Presented.effect (h : Presented s.calls s.log)
    (he : Effect cfg s e t) : Presented t.calls t.log := by
  cases he with
  | tick => exact h
  | requestStop => exact h
  | die => exact h
  | arrive ha =>
      intro note hn i uuid hp
      obtain ⟨host, request, phase, hi, hrest⟩ := h note hn i uuid hp
      obtain ⟨hlt, -⟩ := List.getElem?_eq_some_iff.mp hi
      exact ⟨host, request, phase,
        (List.getElem?_append_left hlt).trans hi, hrest⟩
  | reaper hr =>
      rw [hr.calls_eq]
      cases hr with
      | reap =>
          intro note hn i uuid hp
          rcases List.mem_cons.mp hn with rfl | hn
          · cases hp
          · exact h note hn i uuid hp
      | _ => exact h
  | call cell hc =>
      rename_i k c₀ c₁ u
      have hold : Presented (s.calls.set k c₁) s.log := fun note hn i uuid hp =>
        (h note hn i uuid hp).setCall cell hc.keeps_looked
      obtain ⟨hi, -⟩ := List.getElem?_eq_some_iff.mp cell
      rw [State.setCall, hc.calls_eq]
      cases hc with
      | refuse host request free hnone =>
          intro note hn i uuid hp
          rcases List.mem_cons.mp hn with rfl | hn
          · cases hp
            exact ⟨host, request, _, List.getElem?_set_self hi, rfl,
              Phase.noConfusion⟩
          · exact hold note hn i uuid hp
      | take host request free hsome =>
          intro note hn i uuid hp
          rcases List.mem_cons.mp hn with rfl | hn
          · cases hp
            exact ⟨host, request, _, List.getElem?_set_self hi, rfl,
              Phase.noConfusion⟩
          · exact hold note hn i uuid hp
      | generate | insert | launch =>
          intro note hn i uuid hp
          rcases List.mem_cons.mp hn with rfl | hn
          · cases hp
          · exact hold note hn i uuid hp
      | _ => exact hold

theorem Presented.of_reaches
    (h : Reaches (step cfg) Q (State.start clock) s) :
    Presented s.calls s.log := by
  refine h.invariant (P := fun s => Presented s.calls s.log)
    (fun _ hn => by cases hn) ?_
  intro s e t hs _ hse
  exact hs.effect (step_effect hse)

/-- What a step writes down; a lookup that found nothing is a call's whose
uuid is not in the set. -/
theorem step_log (h : step cfg s e = some t) :
    t.log = s.log ∨ ∃ note, t.log = note :: s.log ∧
      ∀ k uuid time, note = .presented k uuid time [] →
        ∃ host request,
          s.calls[k]? = some (.distribute host request .lookup) ∧
          request.uuid = uuid ∧
          s.reservations.matching (·.uuid = request.uuid) = [] := by
  cases step_effect h with
  | tick => exact .inl rfl
  | requestStop => exact .inl rfl
  | die => exact .inl rfl
  | arrive => exact .inl rfl
  | reaper hr =>
      cases hr with
      | reap => exact .inr ⟨_, rfl, nofun⟩
      | _ => exact .inl rfl
  | call cell hc =>
      cases hc with
      | refuse host request free hnone =>
          refine .inr ⟨_, rfl, fun k uuid time heq => ?_⟩
          cases heq
          exact ⟨host, request, cell, rfl, hnone⟩
      | take host request free hsome =>
          refine .inr ⟨_, rfl, fun k uuid time heq => ?_⟩
          injection heq with _ _ _ hnone
          exact absurd hnone hsome
      | generate | insert | launch => exact .inr ⟨_, rfl, nofun⟩
      | _ => exact .inl rfl

-- ================================================================ the body

/-- How an output came about: the request passed the checks, its content
was decompressed, its arguments filtered, and the compiler run on both. -/
def Ran (host : Host) (request : CompileRequest) (input output : Tempfile)
    (process : Process) : Prop :=
  Accepted host request ∧ ∃ data args,
    decompressor host.zstd request.inputFile.compressionType
      request.inputFile.content = .ok data ∧
    Server.parse request.argument = .ok args ∧
    host.child (host.searchPath request.compiler)
      (compilerArgs args input output) data = .ok process

/-- The answer of a compiler that ran. -/
def Produced (host : Host) (request : CompileRequest)
    (answer : CompileAnswer) : Prop :=
  ∃ input output process content, Ran host request input output process ∧
    compressor host.zstd host.compressorFactory.compressionType
      host.compressorFactory.compressionLevel process.output = .ok content ∧
    answer = ⟨process.returnCode, process.stdout, process.stderr,
      some ⟨output.path, host.compressorFactory.compressionType, content⟩⟩

/-- What is behind a phase from the compiler's end on. -/
def Trail (host : Host) (request : CompileRequest) : Phase → Prop
  | .answer input output process => Ran host request input output process
  | .leave (.ret status answer) | .returned status answer =>
      status.code = .OK → ∃ a, answer = some a ∧ Produced host request a
  | .leave (.throwStatus status) => status.code ≠ .OK
  | _ => True

theorem Trail.destroyAll (nameMax : Nat)
    (files : List (Tempfile × List Str)) {exit : Exit}
    (h : Trail host request (.leave exit)) :
    Trail host request (destroyAll nameMax files exit) := by
  rcases destroyAll_cases nameMax files exit with heq | heq <;> rw [heq]
  · exact h
  · trivial

theorem Trail.step (hinv : PhaseInv host request phase)
    (h : Trail host request phase) :
    Trail host request (distributeStep host request phase) := by
  cases phase with
  | lookup => trivial
  | sanitize =>
      simp only [distributeStep]
      split
      · exact StatusCode.noConfusion
      · trivial
  | allowlist =>
      simp only [distributeStep]
      split
      · trivial
      · exact StatusCode.noConfusion
      · trivial
  | decompress =>
      simp only [distributeStep]
      split
      · trivial
      · exact StatusCode.noConfusion
      · trivial
  | makeInput data => simp only [distributeStep]; split <;> trivial
  | makeOutput data input =>
      simp only [distributeStep]
      split
      · exact Trail.destroyAll _ _ trivial
      · trivial
  | parse data input output =>
      simp only [distributeStep]
      split
      · exact Trail.destroyAll _ _ StatusCode.noConfusion
      · trivial
  | launch data input output args =>
      simp only [distributeStep]
      split
      · exact Trail.destroyAll _ _ trivial
      case h_2 process hchild =>
        exact ⟨hinv.accepted, data, args, hinv.2.2.1, hinv.2.2.2, hchild⟩
  | answer input output process =>
      simp only [distributeStep]
      split
      · exact Trail.destroyAll _ _ trivial
      case h_2 content hcompress =>
        exact Trail.destroyAll _ _ fun _ => ⟨_, rfl, input, output, process,
          content, h, hcompress, rfl⟩
  | leave exit =>
      cases exit with
      | ret status answer => exact h
      | throwStatus status => exact fun hok => absurd hok h
      | throw exception => trivial
  | returned status answer => exact h
  | terminate armed => trivial

/-- From the lookup to the end, the body keeps to its trail. -/
theorem trail_iterate (host : Host) (request : CompileRequest) (n : Nat) :
    PhaseInv host request ((distributeStep host request)^[n] .sanitize) ∧
      Trail host request ((distributeStep host request)^[n] .sanitize) := by
  induction n with
  | zero => exact ⟨trivial, trivial⟩
  | succ n ih =>
      rw [Function.iterate_succ_apply']
      exact ⟨ih.1.step, ih.2.step ih.1⟩

/-- An `OK` from `Distribute` is the answer of a compiler that ran. -/
theorem produced_of_ok {status : Status} {answer : Option CompileAnswer}
    (h : Reaches (step cfg) Q (State.start clock) s)
    (cell : s.calls[i]? = some (.distribute host request
      (.returned status answer))) (hok : status.code = .OK) :
    ∃ a, answer = some a ∧ Produced host request a := by
  rcases InBody.of_reaches h i _ cell with heq | heq | ⟨k, hk⟩
  · cases heq
  · cases heq
    cases hok
  · have htrail := (trail_iterate host request k).2
    rw [← hk] at htrail
    exact htrail hok

-- ================================================================== starts

/-- A cell from the compiler's end on has started a compiler. -/
def Launched (i : Nat) (log : List Note) : Call → Prop
  | .distribute _ request (.answer _ _ _) => .started i request ∈ log
  | .distribute _ request (.leave (.ret status _)) =>
      status.code = .OK → .started i request ∈ log
  | .distribute _ request (.returned status _) =>
      status.code = .OK → .started i request ∈ log
  | .distribute _ _ (.leave (.throwStatus status)) => status.code ≠ .OK
  | _ => True

theorem Launched.cons (h : Launched i log c) (note : Note) :
    Launched i (note :: log) c := by
  cases c with
  | reserve => trivial
  | distribute host request phase =>
      cases phase with
      | answer => exact List.mem_cons_of_mem _ h
      | returned => exact fun hok => List.mem_cons_of_mem _ (h hok)
      | leave exit =>
          cases exit with
          | ret => exact fun hok => List.mem_cons_of_mem _ (h hok)
          | throwStatus => exact h
          | throw => trivial
      | _ => trivial

theorem Launched.destroyAll (nameMax : Nat)
    (files : List (Tempfile × List Str)) {exit : Exit}
    (h : Launched i log (.distribute host request (.leave exit))) :
    Launched i log (.distribute host request
      (destroyAll nameMax files exit)) := by
  rcases destroyAll_cases nameMax files exit with heq | heq <;> rw [heq]
  · exact h
  · trivial

/-- A step of the body starts a compiler, or keeps what is known. -/
theorem Launched.body
    (hlaunch : ∀ data input output args,
      phase = .launch data input output args → .started i request ∈ log)
    (h : Launched i log (.distribute host request phase)) :
    Launched i log (.distribute host request
      (distributeStep host request phase)) := by
  cases phase with
  | lookup => trivial
  | sanitize =>
      simp only [distributeStep]
      split
      · exact StatusCode.noConfusion
      · trivial
  | allowlist =>
      simp only [distributeStep]
      split
      · trivial
      · exact StatusCode.noConfusion
      · trivial
  | decompress =>
      simp only [distributeStep]
      split
      · trivial
      · exact StatusCode.noConfusion
      · trivial
  | makeInput data => simp only [distributeStep]; split <;> trivial
  | makeOutput data input =>
      simp only [distributeStep]
      split
      · exact Launched.destroyAll _ _ trivial
      · trivial
  | parse data input output =>
      simp only [distributeStep]
      split
      · exact Launched.destroyAll _ _ StatusCode.noConfusion
      · trivial
  | launch data input output args =>
      simp only [distributeStep]
      split
      · exact Launched.destroyAll _ _ trivial
      · exact hlaunch data input output args rfl
  | answer input output process =>
      simp only [distributeStep]
      split
      · exact Launched.destroyAll _ _ trivial
      · exact Launched.destroyAll _ _ fun _ => h
  | leave exit =>
      cases exit with
      | ret status answer => exact h
      | throwStatus status => exact fun hok => absurd hok h
      | throw exception => trivial
  | returned status answer => exact h
  | terminate armed => trivial

theorem Launched.callEffect (h : Launched i s.log c)
    (hc : CallEffect cfg s i e c c' t) : Launched i t.log c' := by
  cases hc with
  | quiet hq =>
      cases hq with
      | body host request phase hin =>
          exact h.body fun _ _ _ _ heq => by rw [heq] at hin; cases hin
      | _ => trivial
  | release hr =>
      cases hr with
      | unwind => trivial
      | leave host request exit => exact h.body nofun
  | launch host request data input output args =>
      exact (h.cons _).body fun _ _ _ _ _ => List.mem_cons_self
  | refuse => exact nofun
  | take => trivial
  | pass => trivial
  | grant => trivial
  | generate => trivial
  | insert => trivial

theorem Launched.of_reaches
    (h : Reaches (step cfg) Q (State.start clock) s) :
    ∀ (i : Nat) (c : Call), s.calls[i]? = some c → Launched i s.log c := by
  refine h.invariant (P := fun s => ∀ (i : Nat) (c : Call),
    s.calls[i]? = some c → Launched i s.log c)
    (fun _ _ hc => by cases hc) ?_
  intro s e t hs _ hse
  refine (step_effect hse).cells (P := Launched)
    (fun _ _ note _ hp => hp.cons note) ?_
    (fun _ _ _ _ hp hc => hp.callEffect hc) hs
  intro _ _ c ha
  cases ha <;> trivial

-- ============================================================ continuations

/-- A call stays the call it is, and keeps its answer once it has one. -/
inductive Continues : Call → Call → Prop
  | same (c : Call) : Continues c c
  | reserve {phase : ReservePhase} (phase' : ReservePhase)
      (h : ∀ status answer, phase ≠ .returned status answer) :
      Continues (.reserve phase) (.reserve phase')
  | distribute (host : Host) (request : CompileRequest) {phase : Phase}
      (phase' : Phase) (h : ∀ status answer, phase ≠ .returned status answer) :
      Continues (.distribute host request phase)
        (.distribute host request phase')

theorem CallEffect.continues (hc : CallEffect cfg s i e c c' t) :
    Continues c c' := by
  cases hc with
  | quiet hq =>
      cases hq with
      | body host request phase hin =>
          exact .distribute host request _ fun _ _ heq => by
            rw [heq] at hin
            cases hin
      | _ => exact .reserve _ nofun
  | release hr =>
      cases hr with
      | unwind => exact .reserve _ nofun
      | leave host request exit => exact .distribute host request _ nofun
  | refuse host request => exact .distribute host request _ nofun
  | take host request => exact .distribute host request _ nofun
  | launch host request => exact .distribute host request _ nofun
  | pass => exact .reserve _ nofun
  | grant => exact .reserve _ nofun
  | generate => exact .reserve _ nofun
  | insert => exact .reserve _ nofun

/-- Steps of the server keep its calls; one that arrives is the last. -/
theorem step_continues (h : step cfg s e = some t) (k : Nat) (c : Call)
    (cell : s.calls[k]? = some c) :
    ∃ c', t.calls[k]? = some c' ∧ Continues c c' := by
  have hsame : ∀ {calls : List Call}, calls = s.calls →
      ∃ c', calls[k]? = some c' ∧ Continues c c' :=
    fun heq => ⟨c, heq ▸ cell, .same c⟩
  cases step_effect h with
  | tick => exact hsame rfl
  | requestStop => exact hsame rfl
  | die => exact hsame rfl
  | reaper hr => exact hsame hr.calls_eq
  | arrive ha =>
      obtain ⟨hk, -⟩ := List.getElem?_eq_some_iff.mp cell
      exact ⟨c, (List.getElem?_append_left hk).trans cell, .same c⟩
  | call cell' hc =>
      rename_i j c₀ c₁ u
      rw [State.setCall, hc.calls_eq]
      by_cases hjk : j = k
      · subst hjk
        obtain ⟨hj, -⟩ := List.getElem?_eq_some_iff.mp cell'
        obtain rfl := Option.some.inj (cell.symm.trans cell')
        exact ⟨c₁, List.getElem?_set_self hj, hc.continues⟩
      · exact ⟨c, (List.getElem?_set_ne hjk).trans cell, .same c⟩

/-- Only an arrival makes a call. -/
theorem step_calls_length (h : step cfg s e = some t)
    (hno : ∀ c, ¬Arrives e c) : t.calls.length = s.calls.length := by
  cases step_effect h with
  | tick => rfl
  | requestStop => rfl
  | die => rfl
  | reaper hr => rw [hr.calls_eq]
  | arrive ha => exact absurd ha (hno _)
  | call cell hc => rw [State.setCall, hc.calls_eq, List.length_set]

/-- And it makes one. -/
theorem step_arrives (h : step cfg s e = some t) (ha : Arrives e c) :
    t = { s with calls := s.calls ++ [c] } := by
  cases ha <;> grind [step]

end Distplusplus.Server
