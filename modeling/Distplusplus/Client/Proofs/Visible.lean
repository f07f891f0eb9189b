/-
What others see of a client.

Every action of `func` has its place in the course (`Course.part`): it is
the preprocessor's process or diagnosis, a contact for a job, or part of a
result.

# The results

- `main_clean`: `func` starts the preprocessor and no other process, and
  leaves nothing of a compilation but by ending with an answer; so there is
  nothing of one when the handler takes over, which starts the local
  compiler once at most, with the arguments the client was started with.
- `contacts_prepared`: nothing is asked of a server before the command line
  was parsed and found distributable and the preprocessor ended well, and
  what is sent is its output under the parsed arguments.
- `writes_answered`: the output file is written once at most, after the job
  was sent, and no local compiler is started any more.
-/
import Distplusplus.Client.Proofs.Course

namespace Distplusplus.Client.Main

open Lib Common

variable {w : World} {argv0 : Arg} {args : List Arg}
variable {outfile text cin program : Str} {answer : CompileAnswer}

-- ================================================================= its parts

/-- Does an action leave something the caller sees of a compilation? -/
def Action.leaves : Action → Bool
  | .write _ _ | .cout _ => true
  | _ => false

/-- Is a server told anything? -/
def Action.contacts : Action → Bool
  | .query _ | .reserve _ | .distribute _ _ => true
  | _ => false

/-- Is a process started? -/
def Action.starts : Action → Bool
  | .process _ _ _ => true
  | _ => false

/-- Is a job sent? -/
def Action.sends : Action → Bool
  | .distribute _ _ => true
  | _ => false

section

variable {a : Action} {P : Prepared w argv0 args} {servers : List Str}
variable {job : Send.Job} {remote : Remote}

theorem mem_printed {stream : Str → Action} (h : a ∈ printed stream text) :
    a = stream text := by
  unfold printed at h
  split_ifs at h
  · cases h
  · exact List.mem_singleton.mp h

theorem mem_inRounds {server : Str} {n k : Nat}
    (h : server ∈ Send.inRounds servers n k) : server ∈ servers := by
  rcases List.mem_append.mp h with h | h
  · obtain ⟨round, hround, hmem⟩ := List.mem_flatten.mp h
    rw [List.mem_replicate] at hround
    exact hround.2 ▸ hmem
  · exact List.mem_of_mem_take h

theorem mem_send (h : a ∈ (send w servers job).done) :
    (∃ server ∈ servers, a = .reserve server) ∨
      ∃ stub ∈ servers, ∃ uuid,
        a = .distribute stub (job.compileRequest uuid) := by
  rcases send_spec w servers job with ⟨⟨n, k, heq⟩, -⟩ |
    ⟨n, k, stub, uuid, hlast, heq⟩
  · rw [heq] at h
    obtain ⟨server, hserver, rfl⟩ := List.mem_map.mp h
    exact .inl ⟨server, mem_inRounds hserver, rfl⟩
  · rw [heq] at h
    rcases List.mem_append.mp h with h | h
    · obtain ⟨server, hserver, rfl⟩ := List.mem_map.mp h
      exact .inl ⟨server, mem_inRounds hserver, rfl⟩
    · refine .inr ⟨stub, ?_, uuid, List.mem_singleton.mp h⟩
      exact List.mem_of_mem_take (List.mem_of_mem_getLast? hlast)

theorem mem_wrote {written : Option Str} (h : a ∈ wrote outfile written) :
    ∃ data, written = some data ∧ a = .write outfile data := by
  obtain ⟨data, hdata, rfl⟩ := List.mem_map.mp h
  exact ⟨data, Option.mem_toList.mp hdata, rfl⟩

theorem mem_messages (h : a ∈ messages answer) : ∃ text, a = .cout text := by
  rcases List.mem_append.mp h with h | h
  · exact ⟨_, mem_printed h⟩
  · exact ⟨_, mem_printed h⟩

theorem leaves_result
    (h : a ∈ wrote outfile remote.written ++ messages answer) :
    a.leaves = true := by
  rcases List.mem_append.mp h with h | h
  · obtain ⟨_, -, rfl⟩ := mem_wrote h
    rfl
  · obtain ⟨_, rfl⟩ := mem_messages h
    rfl

/-- What can be seen of a part that has nothing of a kind. -/
theorem countP_eq_zero {f : Action → Bool} {as : List Action}
    (h : ∀ a ∈ as, f a = false) : as.countP f = 0 := by
  rw [List.countP_eq_zero]
  intro a ha
  rw [h a ha]
  exact Bool.false_ne_true

end

/-- Actions that are neither looked for nor printed are in the process that
is started and in the calls of `send`. -/
theorem Course.countP_le {as : List Action} {r : Except Stop Int32}
    {f : Action → Bool} {m n : Nat} (h : Course w argv0 args as r)
    (hquery : ∀ name, f (.query name) = false)
    (hprinted : ∀ a : Action, a.leaves = true → f a = false)
    (hcerr : ∀ text, f (.cerr text) = false)
    (hprocess : ∀ program compilerArgs cin,
      (f (.process program compilerArgs cin)).toNat ≤ m)
    (hsend : ∀ servers job, (send w servers job).done.countP f ≤ n) :
    as.countP f ≤ m + n := by
  have hone : ∀ program compilerArgs cin,
      List.countP f [.process program compilerArgs cin] ≤ m := by
    intro program compilerArgs cin
    have hle := hprocess program compilerArgs cin
    cases hf : f (.process program compilerArgs cin) <;> simp_all
  have hprepared : ∀ P : Prepared w argv0 args,
      P.actions.countP f ≤ m := by
    intro P
    have hzero : (printed .cerr P.preprocessed.stderr).countP f = 0 :=
      countP_eq_zero fun a ha => mem_printed ha ▸ hcerr _
    rw [Prepared.actions, ← List.singleton_append, List.countP_append, hzero]
    exact hone ..
  have hcons : ∀ name as, List.countP f (.query name :: as) =
      as.countP f := fun name as =>
    List.countP_cons_of_neg (by rw [hquery]; exact Bool.false_ne_true)
  cases h with
  | idle | stopped => exact Nat.zero_le _
  | unprepared a e hp =>
      obtain ⟨compiler, p, -, -, rfl⟩ := hp
      exact Nat.le_add_right_of_le (hone ..)
  | diagnosed P => exact Nat.le_add_right_of_le (hprepared P)
  | unconnected P =>
      have hle := hprepared P
      rw [List.countP_append, hcons, List.countP_nil]
      omega
  | unanswered P servers | unreadable P servers =>
      have hle := hprepared P
      have hle' := hsend servers P.job
      rw [List.countP_append, hcons]
      omega
  | answered P servers answer remote =>
      have hle := hprepared P
      have hle' := hsend servers P.job
      have hzero : (wrote P.p.outfile remote.written ++
          messages answer).countP f = 0 :=
        countP_eq_zero fun a ha => hprinted a (leaves_result ha)
      rw [List.countP_append, hcons, List.countP_append, hzero]
      omega

/-- It sends the job once at most. -/
theorem Course.sends_le {as : List Action} {r : Except Stop Int32}
    (h : Course w argv0 args as r) : as.countP Action.sends ≤ 1 := by
  refine h.countP_le (m := 0) (n := 1) (fun _ => rfl) ?_ (fun _ => rfl)
    (fun _ _ _ => Nat.le_refl _) ?_
  · intro a ha
    cases a with
    | distribute => cases ha
    | _ => rfl
  · intro servers job
    have hasked : ∀ asked : List Str, (asked.map Action.reserve).countP
        Action.sends = 0 := by
      intro asked
      refine countP_eq_zero fun a ha => ?_
      obtain ⟨server, -, rfl⟩ := List.mem_map.mp ha
      rfl
    rcases send_spec w servers job with ⟨⟨n, k, heq⟩, -⟩ |
      ⟨n, k, stub, uuid, -, heq⟩
    · rw [heq, hasked]
      exact Nat.zero_le _
    · rw [heq, List.countP_append, hasked]
      exact Nat.le_refl _

/-- A contact that is made for a job. -/
def Contact (P : Prepared w argv0 args) (a : Action) : Prop :=
  a = .query P.job.compilerName ∨
    ∃ servers, w.servers P.job.compilerName = .ok servers ∧
      ((∃ server ∈ servers, a = .reserve server) ∨
        ∃ stub ∈ servers, ∃ uuid,
          a = .distribute stub (P.job.compileRequest uuid))

/-- What an action of `func` is a part of. -/
inductive Part (w : World) (argv0 : Arg) (args : List Arg)
    (as : List Action) (r : Except Stop Int32) : Action → Prop
  | process {a : Action} : Preprocesses w argv0 args a →
      Part w argv0 args as r a
  | diagnosis (P : Prepared w argv0 args) :
      Part w argv0 args as r (.cerr P.preprocessed.stderr)
  | contact (P : Prepared w argv0 args) {a : Action} :
      P.preprocessed.returnCode = 0 → P.actions <+: as → Contact P a →
      Part w argv0 args as r a
  | result (P : Prepared w argv0 args) (servers : List Str)
      (answer : CompileAnswer) (remote : Remote) {a : Action} :
      P.Connects servers → (send w servers P.job).result = .ok answer →
      receive w.lib w.outfile answer = .ok remote →
      as = P.actions ++ .query P.job.compilerName ::
        ((send w servers P.job).done ++
          (wrote P.p.outfile remote.written ++ messages answer)) →
      r = .ok remote.returnCode →
      a ∈ wrote P.p.outfile remote.written ++ messages answer →
      Part w argv0 args as r a

section

variable {as : List Action} {r : Except Stop Int32} {a : Action}

theorem part_of_prepared (P : Prepared w argv0 args) (ha : a ∈ P.actions) :
    Part w argv0 args as r a := by
  rcases List.mem_cons.mp ha with rfl | ha
  · exact .process ⟨P.compiler, P.p, P.isCompiler, P.parsed, rfl⟩
  · rw [mem_printed ha]
    exact .diagnosis P

theorem contact_of_send {P : Prepared w argv0 args} {servers : List Str}
    (hservers : w.servers P.job.compilerName = .ok servers)
    (ha : a ∈ .query P.job.compilerName :: (send w servers P.job).done) :
    Contact P a := by
  rcases List.mem_cons.mp ha with rfl | ha
  · exact .inl rfl
  · exact .inr ⟨servers, hservers, mem_send ha⟩

/-- Every action of `func` has its place in the course. -/
theorem Course.part (h : Course w argv0 args as r) (ha : a ∈ as) :
    Part w argv0 args as r a := by
  cases h with
  | idle | stopped => cases ha
  | unprepared a e hp =>
      rw [List.mem_singleton.mp ha]
      exact .process hp
  | diagnosed P => exact part_of_prepared P ha
  | unconnected P e hzero =>
      rcases List.mem_append.mp ha with ha | ha
      · exact part_of_prepared P ha
      · exact .contact P hzero (List.prefix_append ..)
          (.inl (List.mem_singleton.mp ha))
  | unanswered P servers _ hconnects | unreadable P servers _ _ hconnects =>
      rcases List.mem_append.mp ha with ha | ha
      · exact part_of_prepared P ha
      · exact .contact P hconnects.1 (List.prefix_append ..)
          (contact_of_send hconnects.2 ha)
  | answered P servers answer remote hconnects hanswer hremote =>
      rcases List.mem_append.mp ha with ha | ha
      · exact part_of_prepared P ha
      · rw [← List.cons_append] at ha
        rcases List.mem_append.mp ha with ha | ha
        · exact .contact P hconnects.1 (List.prefix_append ..)
            (contact_of_send hconnects.2 ha)
        · exact .result P servers answer remote hconnects hanswer hremote
            rfl rfl ha

/-- What can be seen of a compilation is part of a result. -/
theorem Course.leaves (h : Course w argv0 args as r) (ha : a ∈ as)
    (hl : a.leaves = true) : ∃ code, r = .ok code ∧
      ∃ (P : Prepared w argv0 args) (servers : List Str)
        (answer : CompileAnswer), P.Connects servers ∧
        (send w servers P.job).result = .ok answer ∧
        code = answer.returnCode := by
  cases h.part ha with
  | process hp =>
      obtain ⟨_, _, -, -, rfl⟩ := hp
      cases hl
  | diagnosis => cases hl
  | contact P _ _ hcontact =>
      rcases hcontact with rfl | ⟨_, -, ⟨_, -, rfl⟩ | ⟨_, -, _, rfl⟩⟩ <;>
        cases hl
  | result P servers answer remote hconnects hanswer hremote _ hr =>
      exact ⟨_, hr, P, servers, answer, hconnects, hanswer,
        (carries_of_receive hremote).2.2⟩

/-- Up to a fallback there is nothing of it. -/
theorem Course.quiet
    (h : Course w argv0 args as (.error (.thrown .fallbackSignal)))
    (ha : a ∈ as) : a.leaves = false := by
  rw [Bool.eq_false_iff]
  intro hl
  obtain ⟨code, hr, -⟩ := h.leaves ha hl
  cases hr

/-- The process is the preprocessor. -/
theorem Course.preprocesses (h : Course w argv0 args as r) (ha : a ∈ as)
    (hs : a.starts = true) : Preprocesses w argv0 args a := by
  cases h.part ha with
  | process hp => exact hp
  | diagnosis => cases hs
  | contact P _ _ hcontact =>
      rcases hcontact with rfl | ⟨_, -, ⟨_, -, rfl⟩ | ⟨_, -, _, rfl⟩⟩ <;>
        cases hs
  | result _ _ _ _ _ _ _ _ _ hmem =>
      have hleaves := leaves_result hmem
      cases a with
      | process => cases hleaves
      | _ => cases hs

/-- On standard error there is what the preprocessor had to say. -/
theorem Course.cerr (h : Course w argv0 args as r) (ha : .cerr text ∈ as) :
    ∃ P : Prepared w argv0 args, text = P.preprocessed.stderr := by
  cases h.part ha with
  | process hp =>
      obtain ⟨_, _, -, -, heq⟩ := hp
      cases heq
  | diagnosis P => exact ⟨P, rfl⟩
  | contact P _ _ hcontact =>
      rcases hcontact with heq | ⟨_, -, ⟨_, -, heq⟩ | ⟨_, -, _, heq⟩⟩ <;>
        cases heq
  | result _ _ _ _ _ _ _ _ _ hmem =>
      have hleaves := leaves_result hmem
      cases hleaves

/-- A contact was prepared for, and the preparation came first. -/
theorem Course.contacts (h : Course w argv0 args as r) (ha : a ∈ as)
    (hc : a.contacts = true) :
    ∃ P : Prepared w argv0 args, P.preprocessed.returnCode = 0 ∧
      P.actions <+: as ∧ Contact P a := by
  cases h.part ha with
  | process hp =>
      obtain ⟨_, _, -, -, rfl⟩ := hp
      cases hc
  | diagnosis => cases hc
  | contact P hzero hprefix hcontact => exact ⟨P, hzero, hprefix, hcontact⟩
  | result _ _ _ _ _ _ _ _ _ hmem =>
      have hleaves := leaves_result hmem
      cases a <;> simp_all [Action.leaves, Action.contacts]

/-- The handler contacts nobody and writes nothing. -/
theorem Locally.neither {fallback : Fallback} {after : List Action}
    (h : Locally w fallback after r) (ha : a ∈ after) :
    a.contacts = false ∧ ∀ path data, a ≠ .write path data := by
  cases h with
  | nothing => cases ha
  | fails =>
      rw [List.mem_singleton.mp ha]
      exact ⟨rfl, by simp⟩
  | runs =>
      rcases List.mem_cons.mp ha with rfl | ha
      · exact ⟨rfl, by simp⟩
      · rcases List.mem_cons.mp ha with rfl | ha
        · exact ⟨rfl, by simp⟩
        · rw [List.mem_singleton.mp ha]
          exact ⟨rfl, by simp⟩

/-- What is written is the decompressed output, as far as it goes. -/
theorem written_of_receive {remote : Remote} {data : Str}
    (h : receive w.lib w.outfile answer = .ok remote)
    (hw : remote.written = some data) :
    ∃ output, decompressor w.lib (outputFile answer).compressionType
        (outputFile answer).content = .ok output ∧
      w.outfile.write output = some data := by
  unfold receive writeOutput at h
  split at h
  · cases h
  case h_2 written hwritten =>
    cases h
    obtain rfl : written = some data := hw
    split at hwritten
    · split at hwritten
      · cases hwritten
      case h_2 output houtput =>
        injection hwritten with hwritten
        exact ⟨output, houtput, hwritten⟩
    · cases hwritten

-- ============================================================= the results

/-- No server hears of a client before its command line was parsed and found
distributable, the preprocessor ended well and its output was compressed;
it hears of that compiler, and gets that output, under the arguments that
were parsed. It is one of those the client knows for the compiler, and the
job is sent once at most. -/
theorem contacts_prepared (w : World) (argv0 : Arg) (args : List Arg) :
    (main w argv0 args).Ensures fun as _ =>
      as.countP Action.sends ≤ 1 ∧
      ∀ a ∈ as, a.contacts = true → ∃ P : Prepared w argv0 args,
        P.preprocessed.returnCode = 0 ∧ P.actions <+: as ∧ Contact P a := by
  refine (main_course w argv0 args).mono ?_
  intro as r h
  cases h with
  | through hcourse _ =>
      exact ⟨hcourse.sends_le, fun a ha hc => hcourse.contacts ha hc⟩
  | handled cin hcourse hlocal =>
      rename_i before after
      have hnone : after.countP Action.sends = 0 := by
        refine countP_eq_zero fun a ha => ?_
        have hc := (hlocal.neither ha).1
        cases a <;> simp_all [Action.sends, Action.contacts]
      constructor
      · rw [List.countP_append, hnone]
        exact hcourse.sends_le
      · intro a ha hc
        rcases List.mem_append.mp ha with ha | ha
        · obtain ⟨P, hzero, hprefix, hcontact⟩ := hcourse.contacts ha hc
          exact ⟨P, hzero, hprefix.trans (List.prefix_append ..), hcontact⟩
        · rw [(hlocal.neither ha).1] at hc
          cases hc

/-- A file is only written when the job was sent and answered: it is the
output file of the command line, and it holds as much of the decompressed
output of the answer as it takes. And then there is nothing else but its
messages and its return code: no local compiler, no second file. -/
theorem writes_answered (w : World) (argv0 : Arg) (args : List Arg) :
    (main w argv0 args).Ensures fun as r => ∀ path data,
      .write path data ∈ as → ∃ (P : Prepared w argv0 args)
        (servers : List Str) (answer : CompileAnswer), P.Connects servers ∧
        (send w servers P.job).result = .ok answer ∧
        (∃ output, decompressor w.lib (outputFile answer).compressionType
            (outputFile answer).content = .ok output ∧
          w.outfile.write output = some data) ∧
        path = P.p.outfile ∧ r = .ok answer.returnCode ∧
        as = P.actions ++ .query P.job.compilerName ::
          ((send w servers P.job).done ++
            .write path data :: messages answer) := by
  refine (main_course w argv0 args).mono ?_
  intro as r h path data hw
  have hcourse : Course w argv0 args as r := by
    cases h with
    | through hcourse _ => exact hcourse
    | handled cin hcourse hlocal =>
        rcases List.mem_append.mp hw with ha | ha
        · have hquiet := hcourse.quiet ha
          cases hquiet
        · exact absurd rfl ((hlocal.neither ha).2 path data)
  cases hcourse.part hw with
  | process hp =>
      obtain ⟨_, _, -, -, heq⟩ := hp
      cases heq
  | contact P _ _ hcontact =>
      rcases hcontact with heq | ⟨_, -, ⟨_, -, heq⟩ | ⟨_, -, _, heq⟩⟩ <;>
        cases heq
  | result P servers answer remote hconnects hanswer hremote has hr hmem =>
      have hwrote : .write path data ∈ wrote P.p.outfile remote.written := by
        rcases List.mem_append.mp hmem with hm | hm
        · exact hm
        · obtain ⟨_, heq⟩ := mem_messages hm
          cases heq
      obtain ⟨data', hwritten, heq⟩ := mem_wrote hwrote
      cases heq
      have hcode := (carries_of_receive hremote).2.2
      refine ⟨P, servers, answer, hconnects, hanswer,
        written_of_receive hremote hwritten, rfl, hcode ▸ hr, ?_⟩
      rw [has, wrote, hwritten]
      rfl

end

end Distplusplus.Client.Main
