/-
What the cache does not depend on.

A run learns from a reply whether a host answers and what its load is. The
rest of the answer, and the compiler the run asked for, are written to the
records and never read back: two histories, of any processes in any
interleaving, that differ in nothing else take the same course
(`unread_fields`). So a run has the same candidates whether the servers
have the compiler or not, as long as they answer.

Two databases are `Indistinct` when they register the same hosts with the
same age and load. Every transaction keeps them so, and comes to the same
phase.
-/
import Distplusplus.Client.Proofs.History

namespace Distplusplus.Client

open Lib Common

variable {D : Type} [Store D Str Str] {views : Views}
variable {db db' : D} {reg reg' : Registry Str Field Str}

-- ============================================================= what is read

/-- The configurations differ in the compiler at most. -/
structure SameConfig (cfg cfg' : Config) : Prop where
  servers : cfg.servers = cfg'.servers
  compressionType : cfg.compressionType = cfg'.compressionType
  logsWarnings : cfg.logsWarnings = cfg'.logsWarnings
  ndebug : cfg.ndebug = cfg'.ndebug

/-- The clocks are the same, the same hosts answer, and with the same loads,
and the same hosts fail with a status that has no name. -/
structure SameLoads (w w' : Surroundings) : Prop where
  examined : w.examined = w'.examined
  written : w.written = w'.written
  answers : ∀ host, Client.answers w host = Client.answers w' host
  unnamed : ∀ host e, mapGRPCStatus (w.query host).1.code = .error e ↔
    mapGRPCStatus (w'.query host).1.code = .error e
  loads : ∀ host, Client.answers w host = true →
    (w.query host).2.currentLoad = (w'.query host).2.currentLoad

/-- Two events that differ in nothing else. -/
inductive Alike : Event → Event → Prop
  | start {cfg cfg' : Config} {w w' : Surroundings} :
      SameConfig cfg cfg' → SameLoads w w' →
      Alike (.start cfg w) (.start cfg' w')
  | advance (i : Nat) : Alike (.advance i) (.advance i)

/-- The fields of a record that are read, next to the name. -/
def legible (r : Field → Str) : Str × Str := (r .age, r .currentLoad)

/-- The databases register the same hosts, with the same age and load. -/
def Indistinct (views : Views) (db db' : D) : Prop :=
  ∃ reg reg', Registered views db reg ∧ Registered views db' reg' ∧
    ∀ host, (reg host).map legible = (reg' host).map legible

variable {cfg cfg' : Config} {w w' : Surroundings}

-- ================================================================ collecting

/-- The host of a name key. -/
def hostOf (k : Str) : Str := k.take (k.length - "_name".toList.length)

theorem hostOf_key (host : Str) : hostOf (key host .name) = host := by
  show (host ++ "_name".toList).take
    ((host ++ "_name".toList).length - "_name".toList.length) = host
  rw [List.length_append, Nat.add_sub_cancel, List.take_left]

/-- The scanned hosts can be read off the keys alone. -/
theorem Registered.scannedHosts_eq (h : Registered views db reg) :
    scannedHosts db =
      (((Store.scan db).map Prod.fst).filter isNameKey).map hostOf := by
  rw [List.filter_map, List.map_map]
  refine List.map_congr_left fun e he => ?_
  obtain ⟨host, r, hr, hk, hv⟩ := (h.represents.mem_select isNameKey_key).mp he
  rw [Function.comp_apply, hk, hostOf_key, hv]
  exact (h.valid host r hr).name

/-- Databases that cannot be told apart have the same keys. -/
theorem Indistinct.keys (h : Indistinct views db db') (k : Str) :
    (Store.get db k).isSome = (Store.get db' k).isSome := by
  obtain ⟨reg, reg', hreg, hreg', hsame⟩ := h
  have hsome : ∀ host, (reg host).isSome = (reg' host).isSome := by
    intro host
    rw [← Option.isSome_map (f := legible), hsame, Option.isSome_map]
  have hkey : ∀ host f, (Store.get db (key host f)).isSome =
      (Store.get db' (key host f)).isSome := by
    intro host f
    rw [hreg.represents.get, hreg'.represents.get, Option.isSome_map,
      Option.isSome_map, hsome]
  by_cases hk : ∃ host f, k = key host f
  · obtain ⟨host, f, rfl⟩ := hk
    exact hkey host f
  · have hno : Store.get db k = none :=
      Option.eq_none_iff_forall_ne_some.mpr fun v hv =>
        hk (hreg.represents.closed k v hv)
    have hno' : Store.get db' k = none :=
      Option.eq_none_iff_forall_ne_some.mpr fun v hv =>
        hk (hreg'.represents.closed k v hv)
    rw [hno, hno']

/-- They are scanned in the same order. -/
theorem Indistinct.scannedHosts (hD : ScansByKey D)
    (h : Indistinct views db db') :
    Client.scannedHosts db = Client.scannedHosts db' := by
  have hkeys := hD db db' h.keys
  obtain ⟨reg, reg', hreg, hreg', -⟩ := h
  rw [hreg.scannedHosts_eq, hreg'.scannedHosts_eq, hkeys]

/-- The age and the load of a host read the same. -/
theorem Indistinct.view (h : Indistinct views db db') (host : Str) :
    Client.view db (key host .age) = Client.view db' (key host .age) ∧
      Client.view db (key host .currentLoad) =
        Client.view db' (key host .currentLoad) := by
  obtain ⟨reg, reg', hreg, hreg', hsame⟩ := h
  unfold Client.view
  rw [hreg.represents.get, hreg'.represents.get, hreg.represents.get,
    hreg'.represents.get]
  have hsame := hsame host
  cases hr : reg host with
  | none =>
      rw [hr] at hsame
      rw [Option.map_eq_none_iff.mp hsame.symm]
      exact ⟨rfl, rfl⟩
  | some r =>
      rw [hr] at hsame
      obtain ⟨r', hr', hleg⟩ := Option.map_eq_some_iff.mp hsame.symm
      rw [hr']
      exact ⟨congrArg Prod.fst hleg.symm, congrArg Prod.snd hleg.symm⟩

/-- The cursor loop makes the same vectors. -/
theorem Indistinct.collect (hD : ScansByKey D)
    (h : Indistinct views db db') (changed : Bool) (examined : Str → Int64) :
    Client.collect views changed examined db =
      Client.collect views changed examined db' := by
  have hstored : storedServer views db = storedServer views db' := by
    funext host
    rw [storedServer, storedServer, (h.view host).2]
  have hold : isOld views examined db = isOld views examined db' := by
    funext host
    rw [isOld, isOld, (h.view host).1]
  have hscan := h.scannedHosts hD
  obtain ⟨reg, reg', hreg, hreg', -⟩ := h
  rw [hreg.collect_eq, hreg'.collect_eq, hscan, collected, collected, hstored,
    hold]

-- ================================================================ refreshing

/-- An update keeps them indistinct. -/
theorem Indistinct.update (h : Indistinct views db db') {server : Str}
    {now : Int64} {a a' : QueryAnswer} (hload : a.currentLoad = a'.currentLoad)
    (name name' page page' : Str) :
    Indistinct views (updateServer views name now page db server a)
      (updateServer views name' now page' db' server a') := by
  obtain ⟨reg, reg', hreg, hreg', hsame⟩ := h
  refine ⟨_, _, hreg.update name now page server a,
    hreg'.update name' now page' server a', fun host => ?_⟩
  by_cases hh : host = server
  · subst hh
    rw [Function.update_self, Function.update_self, Option.map_some,
      Option.map_some]
    simp only [legible, newRecord, hload]
  · rw [Function.update_of_ne hh, Function.update_of_ne hh, hsame]

/-- So does a removal. -/
theorem Indistinct.remove (h : Indistinct views db db') (server : Str) :
    Indistinct views (removeServer db server) (removeServer db' server) := by
  obtain ⟨reg, reg', hreg, hreg', hsame⟩ := h
  refine ⟨_, _, hreg.remove server, hreg'.remove server, fun host => ?_⟩
  by_cases hh : host = server
  · subst hh
    rw [Function.update_self, Function.update_self]
  · rw [Function.update_of_ne hh, Function.update_of_ne hh, hsame]

/-- The records of a purge come to the same. -/
theorem logPurge_same (hcfg : SameConfig cfg cfg')
    {status status' : ReceivedStatus}
    (h : ∀ e, mapGRPCStatus status.code = .error e ↔
      mapGRPCStatus status'.code = .error e) :
    logPurge cfg status = logPurge cfg' status' := by
  have hdown : ∀ {code : Int32} {e}, mapGRPCStatus code = .error e →
      code ≠ 14 := by
    rintro _ e he rfl
    cases he
  rw [logPurge, logPurge, hcfg.logsWarnings]
  cases hm : mapGRPCStatus status.code with
  | error e =>
      have hm' := (h e).mp hm
      rw [if_neg (hdown hm), if_neg (hdown hm'), hm']
  | ok name =>
      cases hm' : mapGRPCStatus status'.code with
      | error e => cases hm.symm.trans ((h e).mpr hm')
      | ok name' => simp

/-- The outcomes of two query loops: the same exception, or the same
candidates and indistinct databases. -/
inductive SameEnd (views : Views) :
    Except InitError (D × List Server) → Except InitError (D × List Server) →
      Prop
  | error (e : InitError) : SameEnd views (.error e) (.error e)
  | ok {db db' : D} (available : List Server) : Indistinct views db db' →
      SameEnd views (.ok (db, available)) (.ok (db', available))

/-- The query loop leaves the same candidates, and indistinct databases. -/
theorem Indistinct.refresh (h : Indistinct views db db')
    (hw : SameLoads w w') (hcfg : SameConfig cfg cfg')
    (vector available : List Server) :
    SameEnd views (Client.refresh views cfg w vector (db, available))
      (Client.refresh views cfg' w' vector (db', available)) := by
  induction vector generalizing db db' available with
  | nil => exact .ok available h
  | cons s rest ih =>
      rw [Client.refresh, Client.refresh]
      have hans := hw.answers s.server
      by_cases hok : (w.query s.server).1.code = 0
      · have hok' : (w'.query s.server).1.code = 0 := by
          rw [answers, answers, decide_eq_true hok] at hans
          exact of_decide_eq_true hans.symm
        have hload := hw.loads s.server (decide_eq_true hok)
        rw [if_pos hok, if_pos hok', hload, hw.written]
        exact ih (h.update hload ..) _
      · have hok' : (w'.query s.server).1.code ≠ 0 := by
          rw [answers, answers, decide_eq_false hok] at hans
          exact of_decide_eq_false hans.symm
        rw [if_neg hok, if_neg hok',
          logPurge_same hcfg (hw.unnamed s.server)]
        cases logPurge cfg' (w'.query s.server).1 with
        | error e => exact .error _
        | ok _ => exact ih (h.remove _) _

-- ============================================================== transactions

/-- The environments of two histories. -/
structure SameEnv (views : Views) (env env' : Env D) : Prop where
  misc : env.misc = env'.misc
  servers : Indistinct views env.servers env'.servers

theorem conclude_same (hcfg : SameConfig cfg cfg') (available : List Server) :
    conclude cfg available = conclude cfg' available := by
  rw [conclude, conclude, hcfg.ndebug]

variable {env env' : Env D}

theorem SameEnv.changed (h : SameEnv views env env')
    (hcfg : SameConfig cfg cfg') :
    compressionChanged cfg env = compressionChanged cfg' env' := by
  rw [compressionChanged, compressionChanged, h.misc, hcfg.compressionType]

/-- A transaction leads to the same phase, and the environments stay the
same. -/
theorem SameEnv.advance (hD : ScansByKey D) (h : SameEnv views env env')
    (hcfg : SameConfig cfg cfg') (hw : SameLoads w w') (phase : Phase) :
    (Client.advance views cfg w (env, phase)).2 =
        (Client.advance views cfg' w' (env', phase)).2 ∧
      SameEnv views (Client.advance views cfg w (env, phase)).1
        (Client.advance views cfg' w' (env', phase)).1 := by
  cases phase with
  | opened => exact ⟨congrArg Phase.typed (h.changed hcfg), h⟩
  | done available => exact ⟨rfl, h⟩
  | failed e => exact ⟨rfl, h⟩
  | collected v =>
      have hr := h.servers.refresh hw hcfg
        (register v.available cfg'.servers v.expired) v.available
      simp only [Client.advance, hcfg.servers]
      generalize Client.refresh views cfg w (register v.available
        cfg'.servers v.expired) (env.servers, v.available) = r at hr ⊢
      generalize Client.refresh views cfg' w' (register v.available
        cfg'.servers v.expired) (env'.servers, v.available) = r' at hr ⊢
      cases hr with
      | error e => exact ⟨rfl, h⟩
      | ok available hdb =>
          exact ⟨conclude_same hcfg available, h.misc, hdb⟩
  | typed changed =>
      cases changed with
      | false =>
          simp only [Client.advance, ← hw.examined,
            h.servers.collect hD false w.examined]
          cases Client.collect views false w.examined env'.servers with
          | error e => exact ⟨rfl, h⟩
          | ok v => exact ⟨rfl, h⟩
      | true =>
          simp only [Client.advance, ← hw.examined,
            h.servers.collect hD true w.examined]
          cases Client.collect views true w.examined env'.servers with
          | error e => exact ⟨rfl, h⟩
          | ok v =>
              have hr := h.servers.refresh hw hcfg
                (register v.available cfg'.servers v.existing) v.available
              simp only [hcfg.servers]
              generalize Client.refresh views cfg w (register v.available
                cfg'.servers v.existing) (env.servers, v.available) = r
                at hr ⊢
              generalize Client.refresh views cfg' w' (register v.available
                cfg'.servers v.existing) (env'.servers, v.available) = r'
                at hr ⊢
              cases hr with
              | error e => exact ⟨rfl, h⟩
              | ok available hdb =>
                  simp only [conclude_same hcfg]
                  cases conclude cfg' available with
                  | failed e => exact ⟨rfl, h⟩
                  | _ =>
                      refine ⟨rfl, ?_, hdb⟩
                      simp only [h.misc, hcfg.compressionType]

-- ================================================================= histories

/-- Two processes at the same point of the same run. -/
structure SameRun (run run' : Run) : Prop where
  cfg : SameConfig run.cfg run'.cfg
  surroundings : SameLoads run.surroundings run'.surroundings
  phase : run.phase = run'.phase

/-- They go equally far. -/
theorem untilDead_same (hcfg : SameConfig cfg cfg') (hw : SameLoads w w')
    (names : List Str) : untilDead cfg w names = untilDead cfg' w' names := by
  have hnamed : ∀ host, Loggable cfg.logsWarnings (w.query host).1 ↔
      Loggable cfg'.logsWarnings (w'.query host).1 := by
    intro host
    have hlog := logPurge_same hcfg (hw.unnamed host)
    constructor
    · intro h
      by_contra hdies
      obtain ⟨e, he⟩ := logPurge_error hdies
      rw [logPurge_ok h, he] at hlog
      cases hlog
    · intro h
      by_contra hdies
      obtain ⟨e, he⟩ := logPurge_error hdies
      rw [logPurge_ok h, he] at hlog
      cases hlog
  induction names with
  | nil => rfl
  | cons host rest ih =>
      rw [untilDead, untilDead, ih]
      exact if_congr (hnamed host) rfl rfl

/-- They will ask the same hosts. -/
theorem SameEnv.queried (hD : ScansByKey D) (h : SameEnv views env env')
    {run run' : Run} (hrun : SameRun run run') :
    Client.queried views env run = Client.queried views env' run' := by
  obtain ⟨cfg, w, phase⟩ := run
  obtain ⟨cfg', w', phase'⟩ := run'
  obtain ⟨hcfg, hw, hphase⟩ := hrun
  dsimp only at hcfg hw hphase
  subst hphase
  have hvector : ∀ changed v, toQuery cfg changed v = toQuery cfg' changed v :=
    fun changed v => by rw [toQuery, toQuery, hcfg.servers]
  cases phase with
  | collected v =>
      simp only [Client.queried, hvector, untilDead_same hcfg hw]
  | typed changed =>
      cases changed with
      | true =>
          simp only [Client.queried, hw.examined, hvector,
            untilDead_same hcfg hw, h.servers.collect hD true w'.examined]
      | false => rfl
  | _ => rfl

/-- The states of two histories. -/
structure SameState (views : Views) (s s' : State D) : Prop where
  env : SameEnv views s.env s'.env
  length : s.runs.length = s'.runs.length
  runs : ∀ (i : Nat) run run', s.runs[i]? = some run →
    s'.runs[i]? = some run' → SameRun run run'

variable {s s' t : State D} {e e' : Event}

/-- A process of the one history is a process of the other. -/
theorem SameState.run (h : SameState views s s') {i : Nat} {run : Run}
    (hi : s.runs[i]? = some run) :
    ∃ run', s'.runs[i]? = some run' ∧ SameRun run run' := by
  obtain ⟨hlt, -⟩ := List.getElem?_eq_some_iff.mp hi
  rw [h.length] at hlt
  exact ⟨s'.runs[i], List.getElem?_eq_getElem hlt,
    h.runs i run _ hi (List.getElem?_eq_getElem hlt)⟩

theorem SameState.no_run (h : SameState views s s') {i : Nat}
    (hi : s.runs[i]? = none) : s'.runs[i]? = none := by
  rw [List.getElem?_eq_none_iff] at hi ⊢
  rwa [← h.length]

/-- Steps by events that are alike keep the states the same. -/
theorem SameState.step (hD : ScansByKey D) (h : SameState views s s')
    (he : Alike e e') (hse : Client.step views s e = some t) :
    ∃ t', Client.step views s' e' = some t' ∧ SameState views t t' := by
  cases he with
  | @start cfg cfg' w w' hcfg hw =>
      cases hse
      refine ⟨_, rfl, h.env, ?_, fun i run run' hi hi' => ?_⟩
      · rw [List.length_append, List.length_append, h.length]
        rfl
      rcases getElem?_append_one_cases hi with ⟨hlast, rfl⟩ | hold
      · rcases getElem?_append_one_cases hi' with ⟨-, rfl⟩ | hold'
        · exact ⟨hcfg, hw, rfl⟩
        · obtain ⟨hlt, -⟩ := List.getElem?_eq_some_iff.mp hold'
          have hlength := h.length
          omega
      · rcases getElem?_append_one_cases hi' with ⟨hlast, rfl⟩ | hold'
        · obtain ⟨hlt, -⟩ := List.getElem?_eq_some_iff.mp hold
          have hlength := h.length
          omega
        · exact h.runs i run run' hold hold'
  | advance j =>
      simp only [Client.step] at hse
      cases hj : s.runs[j]? with
      | none =>
          rw [hj] at hse
          cases hse
      | some before =>
          rw [hj] at hse
          cases hse
          obtain ⟨before', hj', hsame⟩ := h.run hj
          have hadv := h.env.advance hD hsame.cfg hsame.surroundings
            before.phase
          have hphase := hsame.phase
          simp only [Client.step, hj', ← hphase]
          refine ⟨_, rfl, hadv.2, ?_, fun i run run' hi hi' => ?_⟩
          · rw [List.length_set, List.length_set, h.length]
          rcases getElem?_set_cases hj hi with ⟨rfl, rfl⟩ | ⟨hne, hold⟩
          · rcases getElem?_set_cases hj' hi' with ⟨-, rfl⟩ | ⟨hne, -⟩
            · exact ⟨hsame.cfg, hsame.surroundings, hadv.1⟩
            · exact absurd rfl hne
          · rcases getElem?_set_cases hj' hi' with ⟨heq, -⟩ | ⟨-, hold'⟩
            · exact absurd heq hne
            · exact h.runs i run run' hold hold'

theorem sameState_start (views : Views) :
    SameState views (State.start : State D) State.start where
  env := ⟨rfl, _, _, Registered.empty, Registered.empty, fun _ => rfl⟩
  length := rfl
  runs := fun i run run' hi => by cases hi

/-- The processes are at the same points. -/
theorem SameState.phases (h : SameState views s s') :
    s.runs.map Run.phase = s'.runs.map Run.phase := by
  refine List.ext_getElem? fun i => ?_
  rw [List.getElem?_map, List.getElem?_map]
  cases hi : s.runs[i]? with
  | some run =>
      obtain ⟨run', hi', hsame⟩ := h.run hi
      rw [hi', Option.map_some, Option.map_some, hsame.phase]
  | none => rw [h.no_run hi]

/-- They ask the same hosts. -/
theorem SameState.asks (hD : ScansByKey D) (h : SameState views s s')
    (i : Nat) : (Client.asks views s (.advance i)).map Ask.host =
      (Client.asks views s' (.advance i)).map Ask.host := by
  unfold Client.asks
  cases hi : s.runs[i]? with
  | some run =>
      obtain ⟨run', hi', hsame⟩ := h.run hi
      simp only [hi, hi', List.map_map, h.env.queried hD hsame]
      exact List.map_congr_left fun _ _ => rfl
  | none => simp only [hi, h.no_run hi]

-- ================================================================ the theorem

/-- Two histories that differ only in the compilers asked for, in what else
hosts answer, and in the memory behind stored values, take the same course:
the processes have the same candidates, and ask the same hosts. -/
theorem unread_fields (hD : ScansByKey D) {es es' : List Event}
    (hes : List.Forall₂ Alike es es')
    (h : runList (step views) State.start es = some s) :
    ∃ s' : State D, runList (step views) State.start es' = some s' ∧
      s.runs.map Run.phase = s'.runs.map Run.phase ∧
      ∀ i, (asks views s (.advance i)).map Ask.host =
        (asks views s' (.advance i)).map Ask.host := by
  have hstart : SameState views (State.start : State D) State.start :=
    sameState_start views
  obtain ⟨s', hrun, hsame⟩ := runList_related h hstart hes
    fun _ _ _ _ _ hs he hse => SameState.step hD hs he hse
  exact ⟨s', hrun, hsame.phases, hsame.asks hD⟩

/-- A run for a compiler, with a reply that has a load of 7. -/
def asksFor (compilerName : Str) (supported : Bool) : List Event :=
  [.start ⟨["h".toList], CompressionType.zstd, compilerName, true, false⟩
      { examined := fun _ => 0
        query := fun _ => (⟨0, [], []⟩, ⟨supported, supported, 7, 8⟩)
        written := fun _ => 0
        page := fun _ => [] },
    .advance 0, .advance 0]

/-- The server has the one compiler, and is a candidate for the other. -/
theorem unread_fields_unsupported :
    ∃ s s' : State (Std.ExtTreeMap Str Str compare),
      runList (step littleEndian) State.start
        (asksFor "gcc".toList true) = some s ∧
      runList (step littleEndian) State.start
        (asksFor "clang".toList false) = some s' ∧
      s.runs.map Run.phase = [.done [⟨7, "h".toList⟩]] ∧
      s'.runs.map Run.phase = [.done [⟨7, "h".toList⟩]] := by
  have hcheck : (runList (step littleEndian)
      (State.start : State (Std.ExtTreeMap Str Str compare))
      (asksFor "gcc".toList true)).any (fun s =>
        decide (s.runs.map Run.phase = [.done [⟨7, "h".toList⟩]])) = true := by
    decide +kernel
  rw [Option.any_eq_true] at hcheck
  obtain ⟨s, hrun, hphases⟩ := hcheck
  have hphases := of_decide_eq_true hphases
  have halike : List.Forall₂ Alike (asksFor "gcc".toList true)
      (asksFor "clang".toList false) :=
    .cons (.start ⟨rfl, rfl, rfl, rfl⟩
        ⟨rfl, rfl, fun _ => rfl, fun _ _ => Iff.rfl, fun _ _ => rfl⟩)
      (.cons (.advance 0) (.cons (.advance 0) .nil))
  obtain ⟨s', hrun', hsame, -⟩ := unread_fields scansByKey_treeMap halike hrun
  exact ⟨s, s', hrun, hrun', hphases, hsame ▸ hphases⟩

end Distplusplus.Client
