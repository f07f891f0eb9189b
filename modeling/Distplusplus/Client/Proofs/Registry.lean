/-
The database as a registry of hosts.

The keys are strings, `host + suffix`, and are recognised by their suffix;
a host is any string, so it can end in `_name` or contain another host.
Two facts about the six suffixes carry everything: each has its only
underscore in front, so host and field can be read back from a key
(`key_injective`), and no other suffix ends in `_name`
(`isNameKey_key`).

From there on the database is a partial map from hosts to records
(`Registered`, over `Represents` of the store library): `updateServer` and
`removeServer` are updates of that map, `refresh` is a fold of such
updates, and the cursor's name entries are its domain.

- `records_wellFormed`: what holds of the records after any interleaving of
  any runs.
-/
import Distplusplus.Client.QueryDB

namespace Distplusplus.Client

open Lib Common

variable {D : Type} [Store D Str Str] {views : Views}

-- ===================================================================== keys

/-- A text is split at its last separator in one way. -/
theorem append_sep_inj {α : Type*} {a : α} {x y w v : List α} (hw : a ∉ w)
    (hv : a ∉ v) (h : x ++ a :: w = y ++ a :: v) : x = y ∧ w = v := by
  rcases List.append_eq_append_iff.mp h with ⟨m, hm, hr⟩ | ⟨m, hm, hr⟩
  · cases m with
    | nil => exact ⟨by simpa using hm.symm, (List.cons.inj hr).2⟩
    | cons b m =>
        have hmem : a ∈ w := by
          rw [(List.cons.inj hr).2]
          simp
        exact absurd hmem hw
  · cases m with
    | nil => exact ⟨by simpa using hm, (List.cons.inj hr).2.symm⟩
    | cons b m =>
        have hmem : a ∈ v := by
          rw [(List.cons.inj hr).2]
          simp
        exact absurd hmem hv

/-- A suffix has one underscore, in front. -/
theorem suffix_eq (f : Field) : ∃ w, f.suffix = '_' :: w ∧ '_' ∉ w := by
  cases f with
  | name => exact ⟨_, rfl, by decide⟩
  | age => exact ⟨_, rfl, by decide⟩
  | compressionTypeSupported => exact ⟨_, rfl, by decide⟩
  | supportedCompilers => exact ⟨_, rfl, by decide⟩
  | currentLoad => exact ⟨_, rfl, by decide⟩
  | maxJobs => exact ⟨_, rfl, by decide⟩

theorem suffix_injective : Function.Injective Field.suffix := by
  intro f g h
  cases f <;> cases g <;> first | rfl | exact absurd h (by decide)

/-- A key says which host and which field it is for. -/
theorem key_injective : Function.Injective2 key := by
  intro h h' f f' heq
  obtain ⟨w, hf, hw⟩ := suffix_eq f
  obtain ⟨v, hf', hv⟩ := suffix_eq f'
  unfold key at heq
  rw [hf, hf'] at heq
  obtain ⟨hh, hwv⟩ := append_sep_inj hw hv heq
  exact ⟨hh, suffix_injective (by rw [hf, hf', hwv])⟩

/-- Only the name records are taken for name records. -/
theorem isNameKey_key (h : Str) (f : Field) :
    isNameKey (key h f) = true ↔ f = .name := by
  unfold isNameKey
  rw [List.isSuffixOf_iff_suffix]
  constructor
  · intro ⟨h', heq⟩
    have hkey : key h' .name = key h f := heq
    exact (key_injective hkey).2.symm
  · intro hf
    rw [hf]
    exact ⟨h, rfl⟩

-- ================================================================== records

/-- The order in which `updateServer` puts, and `removeServer` deletes. -/
def updateOrder : List Field :=
  [.name, .age, .compressionTypeSupported, .currentLoad, .maxJobs,
    .supportedCompilers]

def removeOrder : List Field :=
  [.name, .age, .compressionTypeSupported, .supportedCompilers,
    .currentLoad, .maxJobs]

theorem mem_updateOrder (f : Field) : f ∈ updateOrder := by
  cases f <;> decide

theorem mem_removeOrder (f : Field) : f ∈ removeOrder := by
  cases f <;> decide

/-- The record `updateServer` writes, given the one it finds. -/
def newRecord (views : Views) (compilerName : Str) (now : Int64) (page : Str)
    (server : Str) (queryAnswer : QueryAnswer)
    (old : Option (Field → Str)) : Field → Str
  | .name => server
  | .age => views.u64.toSv (mtime now)
  | .compressionTypeSupported =>
      views.bool.toSv queryAnswer.compressionTypeSupported
  | .currentLoad => views.u32.toSv (min queryAnswer.currentLoad 100)
  | .maxJobs => views.u64.toSv queryAnswer.maxJobs
  | .supportedCompilers =>
      match old with
      | some r => editCompilers compilerName queryAnswer.compilerSupported
          (cstr (r .supportedCompilers ++ page))
      | none =>
          if queryAnswer.compilerSupported then
            compilerName ++ "/".toList
          else []

/-- What every record in the database is like. -/
structure ValidRecord (views : Views) (host : Str) (r : Field → Str) :
    Prop where
  name : r .name = host
  currentLoad : ∃ n, views.u32.fromSv (r .currentLoad) = some n ∧ n ≤ 100
  age : ∃ n, views.u64.fromSv (r .age) = some n

theorem newRecord_valid (compilerName : Str) (now : Int64) (page server : Str)
    (queryAnswer : QueryAnswer) (old : Option (Field → Str)) :
    ValidRecord views server (newRecord views compilerName now page server
      queryAnswer old) := by
  refine ⟨rfl, ⟨_, views.u32.fromSv_toSv _, ?_⟩, ⟨_, views.u64.fromSv_toSv _⟩⟩
  show (if queryAnswer.currentLoad ≤ 100 then queryAnswer.currentLoad
    else 100) ≤ 100
  split
  · assumption
  · exact UInt32.le_refl _

-- ================================================================= registry

/-- The database holds the records of a registry. -/
structure Registered (views : Views) (db : D)
    (reg : Registry Str Field Str) : Prop where
  represents : Represents key db reg
  valid : ∀ host r, reg host = some r → ValidRecord views host r

variable {db : D} {reg : Registry Str Field Str}

/-- An empty database registers nobody. -/
theorem Registered.empty :
    Registered views (Store.empty : D) (fun _ => none) :=
  ⟨Represents.empty, fun _ _ h => by cases h⟩

/-- `updateServer` writes all fields of the new record. -/
theorem updateServer_eq (h : Registered views db reg) (compilerName : Str)
    (now : Int64) (page server : Str) (queryAnswer : QueryAnswer) :
    updateServer views compilerName now page db server queryAnswer =
      putFields key server (newRecord views compilerName now page server
        queryAnswer (reg server)) updateOrder db := by
  have hold : ∀ r : Field → Str, Store.get (putFields key server r
      [.name, .age, .compressionTypeSupported, .currentLoad, .maxJobs] db)
      (key server .supportedCompilers) =
        (reg server).map fun r => r .supportedCompilers := by
    intro r
    rw [get_putFields_ne, h.represents.get]
    intro f hf he
    obtain ⟨-, rfl⟩ := key_injective he
    revert hf
    decide
  have hold := hold (newRecord views compilerName now page server
    queryAnswer (reg server))
  unfold updateServer
  simp only [putFields, newRecord, updateOrder] at hold ⊢
  rw [hold]
  cases reg server with
  | none => rfl
  | some r => rfl

/-- `removeServer` deletes all fields. -/
theorem removeServer_eq (db : D) (server : Str) :
    removeServer db server = delFields key server removeOrder db := rfl

theorem Registered.update (h : Registered views db reg) (compilerName : Str)
    (now : Int64) (page server : Str) (queryAnswer : QueryAnswer) :
    Registered views
      (updateServer views compilerName now page db server queryAnswer)
      (Function.update reg server (some (newRecord views compilerName now
        page server queryAnswer (reg server)))) := by
  rw [updateServer_eq h]
  refine ⟨h.represents.write key_injective _ _ mem_updateOrder, ?_⟩
  intro host r hr
  by_cases hh : host = server
  · subst hh
    rw [Function.update_self] at hr
    cases hr
    exact newRecord_valid ..
  · rw [Function.update_of_ne hh] at hr
    exact h.valid host r hr

theorem Registered.remove (h : Registered views db reg) (server : Str) :
    Registered views (removeServer db server)
      (Function.update reg server none) := by
  rw [removeServer_eq]
  refine ⟨h.represents.erase key_injective _ mem_removeOrder, ?_⟩
  intro host r hr
  by_cases hh : host = server
  · subst hh
    rw [Function.update_self] at hr
    cases hr
  · rw [Function.update_of_ne hh] at hr
    exact h.valid host r hr

/-- `updateServer` and `removeServer` leave the records of other hosts as
they are, whatever the database holds. -/
theorem get_updateServer_ne {server other : Str} (hne : other ≠ server)
    (compilerName : Str) (now : Int64) (page : Str)
    (queryAnswer : QueryAnswer) (db : D) (f : Field) :
    Store.get (updateServer views compilerName now page db server
      queryAnswer) (key other f) = Store.get db (key other f) := by
  have hkey : ∀ g, key other f ≠ key server g :=
    fun g he => hne (key_injective he).1
  unfold updateServer
  simp only [Store.get_put_ne _ _ _ _ (hkey _)]

theorem get_removeServer_ne {server other : Str} (hne : other ≠ server)
    (db : D) (f : Field) :
    Store.get (removeServer db server) (key other f) =
      Store.get db (key other f) := by
  rw [removeServer_eq]
  exact get_delFields_ne (fun g _ he => hne (key_injective he).1) db

-- =================================================================== scan

/-- The hosts the cursor loop comes across. -/
def scannedHosts (db : D) : List Str :=
  ((Store.scan db).filter fun e => isNameKey e.1).map Prod.snd

/-- The loop comes across the registered hosts, each once. -/
theorem Registered.mem_scannedHosts (h : Registered views db reg)
    {host : Str} : host ∈ scannedHosts db ↔ (reg host).isSome := by
  unfold scannedHosts
  rw [List.mem_map]
  constructor
  · intro ⟨⟨k, v⟩, hmem, (hv : v = host)⟩
    obtain ⟨h', r, hr, -, hname⟩ :=
      (h.represents.mem_select isNameKey_key).mp hmem
    rw [← hv, hname, (h.valid h' r hr).name, hr]
    rfl
  · intro hsome
    obtain ⟨r, hr⟩ := Option.isSome_iff_exists.mp hsome
    refine ⟨(key host .name, host), ?_, rfl⟩
    exact (h.represents.mem_select isNameKey_key).mpr
      ⟨host, r, hr, rfl, (h.valid host r hr).name.symm⟩

theorem Registered.nodup_scannedHosts (h : Registered views db reg) :
    (scannedHosts db).Nodup :=
  h.represents.nodup_select id isNameKey_key
    (fun host r hr => (h.valid host r hr).name) Function.injective_id

-- ================================================================= refresh

/-- The hosts of a vector. -/
abbrev hosts (v : List Server) : List Str := v.map Server.server

theorem hosts_cons (s : Server) (v : List Server) :
    hosts (s :: v) = s.server :: hosts v := rfl

theorem hosts_append (v v' : List Server) :
    hosts (v ++ v') = hosts v ++ hosts v' := List.map_append

/-- Who answers a query with OK. -/
def answers (w : Surroundings) (host : Str) : Bool :=
  decide ((w.query host).1.code = 0)

/-- The entry of a host that answered. -/
def answered (w : Surroundings) (host : Str) : Server :=
  ⟨(w.query host).2.currentLoad, host⟩

/-- The record of a purge can be written. -/
theorem logPurge_ok {cfg : Config} {status : ReceivedStatus}
    (h : Loggable cfg.logsWarnings status) : logPurge cfg status = .ok () := by
  unfold logPurge
  split_ifs with hdown hlogs
  · rfl
  · obtain ⟨name, hname⟩ := mapGRPCStatus_listed (h hlogs)
    rw [hname]
  · rfl

/-- Or it throws. -/
theorem logPurge_error {cfg : Config} {status : ReceivedStatus}
    (h : ¬Loggable cfg.logsWarnings status) :
    ∃ e, logPurge cfg status = .error e := by
  simp only [Loggable, Classical.not_imp] at h
  obtain ⟨hlogs, hunlisted⟩ := h
  obtain ⟨e, he⟩ := mapGRPCStatus_unlisted hunlisted
  have hdown : status.code ≠ 14 := by
    rintro heq
    rw [heq] at hunlisted
    exact hunlisted (by decide)
  refine ⟨e, ?_⟩
  rw [logPurge, if_neg hdown, if_pos hlogs, he]

/-- No query of these hosts is one `init` dies of. -/
def Calm (cfg : Config) (w : Surroundings) (names : List Str) : Prop :=
  ∀ host ∈ names, Loggable cfg.logsWarnings (w.query host).1

/-- The query loop comes to its end, and who answers becomes available, with
the load of the answer. -/
theorem refresh_ok (views : Views) {cfg : Config} {w : Surroundings}
    {vector : List Server}
    (h : Calm cfg w (hosts vector)) (r : D × List Server) :
    ∃ db', refresh views cfg w vector r = .ok (db',
      r.2 ++ ((hosts vector).filter (answers w)).map (answered w)) := by
  induction vector generalizing r with
  | nil => exact ⟨r.1, by simp [refresh]⟩
  | cons s rest ih =>
      obtain ⟨db, available⟩ := r
      have hs := h s.server (List.mem_cons_self ..)
      have ih := ih fun host hm => h host (List.mem_cons_of_mem _ hm)
      rw [refresh]
      by_cases hok : (w.query s.server).1.code = 0
      · have hans : answers w s.server = true := decide_eq_true hok
        rw [if_pos hok, hosts_cons, List.filter_cons_of_pos hans]
        obtain ⟨db', hdb'⟩ := ih (updateServer views cfg.compilerName
          (w.written s.server) (w.page s.server) db s.server
          (w.query s.server).2, available ++ [answered w s.server])
        refine ⟨db', hdb'.trans ?_⟩
        rw [List.map_cons, List.append_assoc, List.singleton_append]
      · have hans : ¬answers w s.server = true :=
          fun h => hok (of_decide_eq_true h)
        rw [if_neg hok, logPurge_ok hs, hosts_cons,
          List.filter_cons_of_neg hans]
        exact ih (removeServer db s.server, available)

/-- Or it dies of a query. -/
theorem refresh_error (views : Views) {cfg : Config} {w : Surroundings}
    {vector : List Server} (h : ¬Calm cfg w (hosts vector))
    (r : D × List Server) :
    ∃ e, refresh views cfg w vector r = .error (.exception e) := by
  induction vector generalizing r with
  | nil => exact absurd (fun host hm => by cases hm) h
  | cons s rest ih =>
      obtain ⟨db, available⟩ := r
      rw [refresh]
      by_cases hs : Loggable cfg.logsWarnings (w.query s.server).1
      · have ih := ih fun hrest => h fun host hm => by
          rcases List.mem_cons.mp hm with rfl | hm
          · exact hs
          · exact hrest host hm
        split
        · exact ih _
        · rw [logPurge_ok hs]
          exact ih _
      · obtain ⟨e, he⟩ := logPurge_error hs
        rw [if_neg fun hok => hs (loggable_ok hok), he]
        exact ⟨e, rfl⟩

/-- What a query makes of a host's record. -/
def outcome (views : Views) (cfg : Config) (w : Surroundings)
    (server : Str) (old : Option (Field → Str)) : Option (Field → Str) :=
  if (w.query server).1.code = 0 then
    some (newRecord views cfg.compilerName (w.written server)
      (w.page server) server (w.query server).2 old)
  else none

/-- The query loop, on the registry. -/
def refreshed (views : Views) (cfg : Config) (w : Surroundings) :
    List Server → Registry Str Field Str → Registry Str Field Str
  | [], reg => reg
  | s :: rest, reg => refreshed views cfg w rest
      (Function.update reg s.server
        (outcome views cfg w s.server (reg s.server)))

theorem Registered.refresh (h : Registered views db reg) {cfg : Config}
    {w : Surroundings} {vector available : List Server}
    {r : D × List Server}
    (hr : Client.refresh views cfg w vector (db, available) = .ok r) :
    Registered views r.1 (refreshed views cfg w vector reg) := by
  induction vector generalizing db reg available with
  | nil =>
      cases hr
      exact h
  | cons s rest ih =>
      rw [Client.refresh] at hr
      rw [refreshed, outcome]
      by_cases hok : (w.query s.server).1.code = 0
      · rw [if_pos hok] at hr ⊢
        exact ih (h.update ..) hr
      · rw [if_neg hok] at hr ⊢
        cases hlog : logPurge cfg (w.query s.server).1 with
        | error e =>
            rw [hlog] at hr
            cases hr
        | ok _ =>
            rw [hlog] at hr
            exact ih (h.remove _) hr

-- =============================================================== processes

/-- The database holds whole, valid records and nothing else. -/
def WellFormed (views : Views) (db : D) : Prop :=
  ∃ reg, Registered views db reg

/-- Every transaction keeps the database well-formed. -/
theorem advance_wellFormed (cfg : Config) (w : Surroundings) (phase : Phase)
    {env : Env D} (h : WellFormed views env.servers) :
    WellFormed views (advance views cfg w (env, phase)).1.servers := by
  obtain ⟨reg, hreg⟩ := h
  cases phase with
  | opened => exact ⟨reg, hreg⟩
  | done available => exact ⟨reg, hreg⟩
  | failed e => exact ⟨reg, hreg⟩
  | collected v =>
      simp only [advance]
      cases hr : refresh views cfg w (register v.available cfg.servers
          v.expired) (env.servers, v.available) with
      | error e => exact ⟨reg, hreg⟩
      | ok r => exact ⟨_, hreg.refresh hr⟩
  | typed changed =>
      cases changed with
      | false =>
          simp only [advance]
          cases collect views false w.examined env.servers with
          | error e => exact ⟨reg, hreg⟩
          | ok v => exact ⟨reg, hreg⟩
      | true =>
          simp only [advance]
          cases collect views true w.examined env.servers with
          | error e => exact ⟨reg, hreg⟩
          | ok v =>
              dsimp only
              cases hr : refresh views cfg w (register v.available
                  cfg.servers v.existing) (env.servers, v.available) with
              | error e => exact ⟨reg, hreg⟩
              | ok r =>
                  -- a failed check leaves the parent uncommitted as well
                  dsimp only
                  split
                  · exact ⟨reg, hreg⟩
                  · exact ⟨_, hreg.refresh hr⟩

/-- The database is well-formed in every state of every interleaving. -/
theorem reachable_wellFormed {s : State D}
    (h : Reaches (step views) (fun _ _ => True) State.start s) :
    WellFormed views s.env.servers := by
  refine h.invariant (P := fun s => WellFormed views s.env.servers)
    ⟨_, Registered.empty⟩ ?_
  intro s e t hs _ hstep
  cases e with
  | start cfg w =>
      cases hstep
      exact hs
  | advance i =>
      simp only [step] at hstep
      cases hrun : s.runs[i]? with
      | none =>
          rw [hrun] at hstep
          cases hstep
      | some run =>
          rw [hrun] at hstep
          cases hstep
          exact advance_wellFormed _ _ _ hs

/-- What holds of the records in every state of every interleaving of runs:
all six records of a host or none; a name record names its host; loads are
capped; a write for one host leaves the others' records alone; the cursor
loop comes across each registered host once, and nothing else. -/
theorem records_wellFormed {s : State D}
    (h : Reaches (step views) (fun _ _ => True) State.start s) :
    (∀ host,
      (∀ f, (Store.get s.env.servers (key host f)).isSome = true) ∨
      ∀ f, Store.get s.env.servers (key host f) = none) ∧
    (∀ host v, Store.get s.env.servers (key host .name) = some v →
      v = host) ∧
    (∀ host v, Store.get s.env.servers (key host .currentLoad) = some v →
      ∃ load, views.u32.fromSv v = some load ∧ load ≤ 100) ∧
    (∀ host other, other ≠ host → ∀ f,
      (∀ compilerName now page queryAnswer,
        Store.get (updateServer views compilerName now page s.env.servers
          host queryAnswer) (key other f) =
            Store.get s.env.servers (key other f)) ∧
      Store.get (removeServer s.env.servers host) (key other f) =
        Store.get s.env.servers (key other f)) ∧
    (scannedHosts s.env.servers).Nodup ∧
    ∀ host, host ∈ scannedHosts s.env.servers ↔
      (Store.get s.env.servers (key host .name)).isSome = true := by
  obtain ⟨reg, hreg⟩ := reachable_wellFormed h
  have hget := hreg.represents.get
  refine ⟨fun host => ?_, fun host v hv => ?_, fun host v hv => ?_,
    fun host other hne f => ⟨fun compilerName now page queryAnswer =>
      get_updateServer_ne hne compilerName now page queryAnswer _ f,
      get_removeServer_ne hne _ f⟩,
    hreg.nodup_scannedHosts, fun host => ?_⟩
  · cases hr : reg host with
    | none => exact .inr fun f => by rw [hget, hr]; rfl
    | some r => exact .inl fun f => by rw [hget, hr]; rfl
  · rw [hget] at hv
    obtain ⟨r, hr, rfl⟩ := Option.map_eq_some_iff.mp hv
    exact (hreg.valid host r hr).name
  · rw [hget] at hv
    obtain ⟨r, hr, rfl⟩ := Option.map_eq_some_iff.mp hv
    exact (hreg.valid host r hr).currentLoad
  · rw [hreg.mem_scannedHosts, hget, Option.isSome_map]

/-- Two processes that both know `h` and `h_name`, one transaction each in
turn; the second finds them unreachable. -/
def twoRuns : List Event :=
  let cfg : Config := ⟨["h".toList, "h_name".toList], 1, "gcc".toList, true,
    true⟩
  let up : Surroundings := ⟨fun _ => 0, fun _ => (⟨0, [], []⟩, ⟨true, true,
    700, 8⟩), fun _ => 0, fun _ => []⟩
  let down : Surroundings := { up with
    query := fun server =>
      if server = "h".toList then (⟨14, [], []⟩, ⟨false, false, 0, 0⟩)
      else (⟨0, [], []⟩, ⟨true, true, 3, 8⟩) }
  [.start cfg up, .start cfg down, .advance 0, .advance 1, .advance 0,
    .advance 1]

/-- After them `h` has no records, and `h_name` has all. -/
theorem records_wellFormed_two :
    ∃ s : State (Std.ExtTreeMap Str Str compare),
      Reaches (step littleEndian) (fun _ _ => True) State.start s ∧
      (scannedHosts s.env.servers).Nodup ∧
      scannedHosts s.env.servers = ["h_name".toList] := by
  have hrun : runList (step littleEndian)
      (State.start : State (Std.ExtTreeMap Str Str compare)) twoRuns =
        some _ := rfl
  have hreach := Reaches.of_runList (q := fun _ _ => true)
    (Q := fun _ _ => True) (fun _ _ _ => trivial) twoRuns hrun rfl
  exact ⟨_, hreach, (records_wellFormed hreach).2.2.2.2.1, rfl⟩

end Distplusplus.Client
