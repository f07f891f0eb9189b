/-
What one run of `init` does with every host.

A run sorts the hosts it knows, from the database and from the
configuration, into three kinds: fresh ones it takes over, and the rest,
which it queries and then either refreshes or purges. The three vectors
carry that through: the cursor loop fills them (`collectLoop_eq`), the
configured hosts are added where they are in none (`register_nodup`,
`mem_register`), the query loop empties one into the database and the
candidates (`refresh_hosts`, `refreshed_apply`).

`Registered.init` is the run on the registry. `init_classifies` says the
same of the database and of `client->servers`.
-/
import Distplusplus.Client.Proofs.Registry
import Mathlib.Data.List.Dedup

namespace Distplusplus.Client

open Lib Common

variable {D : Type} [Store D Str Str] {views : Views}
variable {db : D} {reg : Registry Str Field Str}

-- ================================================================ collecting

/-- The age check, where the age can be read. -/
def isOld (views : Views) (examined : Str → Int64) (db : D) (host : Str) :
    Bool :=
  match views.u64.fromSv (view db (key host .age)) with
  | some age => isExpired (examined host) age
  | none => true

/-- The two values the loop reads of a host can be read. -/
def Readable (views : Views) (db : D) (host : Str) : Prop :=
  (∃ load, views.u32.fromSv (view db (key host .currentLoad)) = some load) ∧
    ∃ age, views.u64.fromSv (view db (key host .age)) = some age

/-- The entry the loop makes of a host's record. -/
def storedServer (views : Views) (db : D) (host : Str) : Server :=
  ⟨(views.u32.fromSv (view db (key host .currentLoad))).getD 0, host⟩

theorem hosts_map_storedServer (db : D) (names : List Str) :
    hosts (names.map (storedServer views db)) = names := by
  rw [hosts, List.map_map]
  exact List.map_id' names

/-- The vectors the loop makes of the hosts `names`. -/
def collected (views : Views) (changed : Bool) (examined : Str → Int64)
    (db : D) (names : List Str) : Vectors where
  existing := if changed then names.map (storedServer views db) else []
  expired := if changed then [] else
    (names.filter (isOld views examined db)).map (storedServer views db)
  available := if changed then [] else
    (names.filter fun h => !isOld views examined db h).map
      (storedServer views db)

/-- The loop on readable entries. -/
theorem collectLoop_eq (changed : Bool) (examined : Str → Int64) (db : D)
    {entries : List (Str × Str)}
    (hread : ∀ e ∈ entries, isNameKey e.1 = true → Readable views db e.2)
    (v : Vectors) :
    collectLoop views changed examined db entries v =
      let added := collected views changed examined db
        ((entries.filter fun e => isNameKey e.1).map Prod.snd)
      .ok ⟨v.existing ++ added.existing, v.expired ++ added.expired,
        v.available ++ added.available⟩ := by
  induction entries generalizing v with
  | nil =>
      cases changed with
      | true => simp [collectLoop, collected]
      | false => simp [collectLoop, collected]
  | cons e entries ih =>
      obtain ⟨k, host⟩ := e
      have ih := ih fun e he => hread e (List.mem_cons_of_mem _ he)
      cases hk : isNameKey k with
      | false =>
          rw [List.filter_cons_of_neg (by simp [hk])]
          simp only [collectLoop, hk, Bool.not_false, if_true]
          exact ih v
      | true =>
          obtain ⟨⟨load, hload⟩, ⟨age, hage⟩⟩ :=
            hread _ (List.mem_cons_self ..) hk
          have hold : isOld views examined db host =
              isExpired (examined host) age := by
            rw [isOld, hage]
          have hserver : storedServer views db host = ⟨load, host⟩ := by
            rw [storedServer, hload, Option.getD_some]
          rw [List.filter_cons_of_pos (by simp [hk]), List.map_cons]
          simp only [collectLoop, hk, hload, hage]
          simp only [Bool.not_true, Bool.false_eq_true, if_false]
          cases changed with
          | true =>
              apply (ih _).trans
              simp [collected, hserver]
          | false =>
              cases hexp : isExpired (examined host) age with
              | true =>
                  apply (ih _).trans
                  simp [collected, hold, hexp, hserver]
              | false =>
                  apply (ih _).trans
                  simp [collected, hold, hexp, hserver]

/-- What the loop adds to the vectors. -/
structure Collects (views : Views) (changed : Bool) (examined : Str → Int64)
    (db : D) (names : List Str) (v v' : Vectors) : Prop where
  existing : hosts v'.existing =
    hosts v.existing ++ if changed then names else []
  expired : hosts v'.expired = hosts v.expired ++
    if changed then [] else names.filter (isOld views examined db)
  available : hosts v'.available = hosts v.available ++
    if changed then [] else names.filter fun h => !isOld views examined db h

theorem collects_collected (changed : Bool) (examined : Str → Int64) (db : D)
    (names : List Str) : Collects views changed examined db names
      ⟨[], [], []⟩ (collected views changed examined db names) := by
  cases changed with
  | true => exact ⟨hosts_map_storedServer db names, rfl, rfl⟩
  | false =>
      exact ⟨rfl, hosts_map_storedServer db _, hosts_map_storedServer db _⟩

/-- Every scanned host of a well-formed database can be read. -/
theorem Registered.readable (h : Registered views db reg) {k host : Str}
    (he : (k, host) ∈ Store.scan db) (hk : isNameKey k = true) :
    Readable views db host := by
  obtain ⟨h', r, hr, -, hname⟩ := (h.represents.mem_select
    isNameKey_key).mp (List.mem_filter.mpr ⟨he, hk⟩)
  have hvalid := h.valid h' r hr
  rw [hvalid.name] at hname
  subst hname
  have hview : ∀ f, view db (key host f) = r f := by
    intro f
    rw [view, h.represents.get, hr]
    rfl
  obtain ⟨load, hload, -⟩ := hvalid.currentLoad
  obtain ⟨age, hage⟩ := hvalid.age
  exact ⟨⟨load, by rw [hview, hload]⟩, ⟨age, by rw [hview, hage]⟩⟩

/-- The cursor loop never throws. -/
theorem Registered.collect_eq (h : Registered views db reg) (changed : Bool)
    (examined : Str → Int64) : Client.collect views changed examined db =
      .ok (collected views changed examined db (scannedHosts db)) :=
  collectLoop_eq changed examined db (fun _ he hk => h.readable he hk) _

/-- It sorts the scanned hosts. -/
theorem Registered.collect (h : Registered views db reg) (changed : Bool)
    (examined : Str → Int64) :
    ∃ v, collect views changed examined db = .ok v ∧
      Collects views changed examined db (scannedHosts db) ⟨[], [], []⟩ v :=
  ⟨_, h.collect_eq changed examined, collects_collected ..⟩

-- =============================================================== registering

/-- The duplicate check, over hosts. -/
theorem any_server {v : List Server} {host : Str} :
    (v.any fun s => decide (host = s.server)) = true ↔ host ∈ hosts v := by
  rw [List.any_eq_true, List.mem_map]
  constructor
  · intro ⟨s, hs, heq⟩
    exact ⟨s, hs, (of_decide_eq_true heq).symm⟩
  · intro ⟨s, hs, heq⟩
    exact ⟨s, hs, decide_eq_true heq.symm⟩

/-- A configured host is added when it is in neither vector. -/
theorem mem_register {available serverVector : List Server} {conf : List Str}
    {host : Str} : host ∈ hosts (register available conf serverVector) ↔
      host ∈ hosts serverVector ∨
        (host ∈ conf ∧ host ∉ hosts available) := by
  induction conf generalizing serverVector with
  | nil => simp [register]
  | cons server rest ih =>
      rw [register]
      split
      case isTrue hin =>
        rw [Bool.or_eq_true, any_server, any_server] at hin
        rw [ih, List.mem_cons]
        constructor
        · exact fun h => h.imp_right fun h => ⟨.inr h.1, h.2⟩
        · intro h
          rcases h with h | ⟨rfl | h, hna⟩
          · exact .inl h
          · exact .inl (hin.resolve_right hna)
          · exact .inr ⟨h, hna⟩
      case isFalse hout =>
        rw [Bool.or_eq_true, any_server, any_server, not_or] at hout
        rw [ih, hosts_append, List.mem_append, List.mem_cons]
        constructor
        · intro h
          rcases h with (h | h) | h
          · exact .inl h
          · obtain rfl : host = server := by simpa using h
            exact .inr ⟨.inl rfl, hout.2⟩
          · exact .inr ⟨.inr h.1, h.2⟩
        · intro h
          rcases h with h | ⟨rfl | h, hna⟩
          · exact .inl (.inl h)
          · exact .inl (.inr (by simp))
          · exact .inr ⟨h, hna⟩

/-- Nobody is in the two vectors twice. -/
theorem register_nodup {available serverVector : List Server}
    (h : (hosts serverVector ++ hosts available).Nodup) (conf : List Str) :
    (hosts (register available conf serverVector) ++
      hosts available).Nodup := by
  induction conf generalizing serverVector with
  | nil => exact h
  | cons server rest ih =>
      rw [register]
      split
      case isTrue => exact ih h
      case isFalse hout =>
        rw [Bool.or_eq_true, any_server, any_server, not_or] at hout
        apply ih
        have hcons : (server :: (hosts serverVector ++
            hosts available)).Nodup :=
          List.nodup_cons.mpr ⟨by simpa using hout, h⟩
        have hperm : (server :: (hosts serverVector ++
            hosts available)).Perm (hosts (serverVector ++ [⟨0, server⟩]) ++
              hosts available) := by
          rw [hosts_append, List.append_assoc]
          exact List.perm_middle.symm
        exact hperm.nodup hcons

-- ================================================================ refreshing

theorem hosts_map_answered (w : Surroundings) (names : List Str) :
    hosts (names.map (answered w)) = names := by
  rw [hosts, List.map_map]
  exact List.map_id' names

/-- The query loop goes through every host of the vector once. -/
theorem refreshed_apply (cfg : Config) (w : Surroundings)
    {vector : List Server} (h : (hosts vector).Nodup)
    (reg : Registry Str Field Str) (host : Str) :
    refreshed views cfg w vector reg host =
      if host ∈ hosts vector then
        outcome views cfg w host (reg host)
      else reg host := by
  induction vector generalizing reg with
  | nil => rfl
  | cons s rest ih =>
      obtain ⟨hs, hrest⟩ := List.nodup_cons.mp h
      rw [refreshed, ih hrest, hosts_cons]
      by_cases hh : host = s.server
      · subst hh
        rw [if_neg hs, if_pos (List.mem_cons_self ..), Function.update_self]
      · rw [Function.update_of_ne hh]
        simp [hh]

-- =================================================================== a run

/-- A host the run takes over from the database. -/
def isFresh (views : Views) (changed : Bool) (w : Surroundings) (db : D)
    (host : Str) : Bool :=
  !changed && decide (host ∈ scannedHosts db) &&
    !isOld views w.examined db host

/-- A host of the database or of the configuration. -/
def isKnown (cfg : Config) (db : D) (host : Str) : Bool :=
  decide (host ∈ scannedHosts db) || decide (host ∈ cfg.servers)

/-- What a run leaves in the candidate vector and in the database. -/
structure Classified (views : Views) (changed : Bool) (cfg : Config)
    (w : Surroundings) (db : D) (reg : Registry Str Field Str)
    (r : D × List Server) : Prop where
  nodup : (hosts r.2).Nodup
  available : ∀ host, host ∈ hosts r.2 ↔
    isFresh views changed w db host = true ∨
      isKnown cfg db host = true ∧ answers w host = true
  registered : Registered views r.1 fun host =>
    if isKnown cfg db host && !isFresh views changed w db host then
      outcome views cfg w host (reg host)
    else reg host

/-- The cursor loop sorts the scanned hosts into the fresh and the rest. -/
theorem collects_sorted {changed : Bool} {w : Surroundings} {v : Vectors}
    (hnd : (scannedHosts db).Nodup)
    (h : Collects views changed w.examined db (scannedHosts db)
      ⟨[], [], []⟩ v) :
    (hosts (if changed then v.existing else v.expired) ++
        hosts v.available).Nodup ∧
      (∀ host, host ∈ hosts v.available ↔
        isFresh views changed w db host = true) ∧
      ∀ host, host ∈ hosts (if changed then v.existing else v.expired) ↔
        host ∈ scannedHosts db ∧
          isFresh views changed w db host = false := by
  cases changed with
  | true =>
      have hex : hosts v.existing = scannedHosts db := h.existing
      have hav : hosts v.available = [] := h.available
      rw [if_pos rfl, hex, hav, List.append_nil]
      exact ⟨hnd, fun host => by simp [isFresh], fun host => by
        simp [isFresh]⟩
  | false =>
      have hex : hosts v.expired = (scannedHosts db).filter
        (isOld views w.examined db) := h.expired
      have hav : hosts v.available = (scannedHosts db).filter
        fun host => !isOld views w.examined db host := h.available
      rw [if_neg Bool.false_ne_true, hex, hav]
      refine ⟨(List.filter_append_perm _ _).nodup_iff.mpr hnd,
        fun host => ?_, fun host => ?_⟩
      · simp [isFresh]
      · rw [List.mem_filter]
        refine and_congr_right fun hm => ?_
        simp [isFresh, hm]

/-- The vector a run queries, after the scan. -/
def toQuery (cfg : Config) (changed : Bool) (v : Vectors) : List Server :=
  register v.available cfg.servers (if changed then v.existing else v.expired)

/-- Collecting and registering: the run takes over the fresh hosts, and has
to query the other known ones. -/
theorem Registered.sorted (h : Registered views db reg) (changed : Bool)
    (cfg : Config) (w : Surroundings) :
    ∃ v, Client.collect views changed w.examined db = .ok v ∧
      (hosts (toQuery cfg changed v) ++ hosts v.available).Nodup ∧
      (∀ host, host ∈ hosts v.available ↔
        isFresh views changed w db host = true) ∧
      ∀ host, host ∈ hosts (toQuery cfg changed v) ↔
        isKnown cfg db host = true ∧
          isFresh views changed w db host = false := by
  obtain ⟨v, hv, hc⟩ := h.collect changed w.examined
  obtain ⟨hnd, hfresh, hrest⟩ := collects_sorted h.nodup_scannedHosts hc
  refine ⟨v, hv, register_nodup hnd cfg.servers, hfresh, fun host => ?_⟩
  rw [toQuery, mem_register, hrest, hfresh, Bool.not_eq_true,
    ← or_and_right, isKnown, Bool.or_eq_true, decide_eq_true_iff,
    decide_eq_true_iff]

/-- Collecting, registering and refreshing, in one. -/
theorem Registered.classified (h : Registered views db reg) {changed : Bool}
    {cfg : Config} {w : Surroundings} {v : Vectors} {r : D × List Server}
    (hv : Client.collect views changed w.examined db = .ok v)
    (hr : Client.refresh views cfg w (toQuery cfg changed v)
      (db, v.available) = .ok r) :
    Classified views changed cfg w db reg r := by
  obtain ⟨v', hv', hnd, hfresh, hvector⟩ := h.sorted changed cfg w
  rw [hv] at hv'
  cases hv'
  have hcalm : Calm cfg w (hosts (toQuery cfg changed v)) := by
    by_contra hnot
    obtain ⟨e, he⟩ := refresh_error views hnot (db, v.available)
    rw [hr] at he
    cases he
  have hreg := h.refresh hr
  obtain ⟨db', hdb'⟩ :=
    refresh_ok views hcalm (db, v.available)
  rw [hr] at hdb'
  cases hdb'
  generalize toQuery cfg changed v = vector at hnd hvector hreg
  have hndv := (List.nodup_append.mp hnd).1
  refine ⟨?_, fun host => ?_, ?_⟩
  · rw [hosts_append, hosts_map_answered]
    have hsub : ((hosts vector).filter (answers w) ++
        hosts v.available).Sublist (hosts vector ++ hosts v.available) :=
      List.filter_sublist.append (List.Sublist.refl _)
    exact List.perm_append_comm.nodup_iff.mp (hnd.sublist hsub)
  · rw [hosts_append, hosts_map_answered, List.mem_append, hfresh,
      List.mem_filter, hvector]
    cases isFresh views changed w db host <;> simp
  · have hfun : (fun host =>
        if isKnown cfg db host && !isFresh views changed w db host then
          outcome views cfg w host (reg host)
        else reg host) = refreshed views cfg w vector reg := by
      funext host
      rw [refreshed_apply cfg w hndv]
      refine if_congr ?_ rfl rfl
      rw [hvector, Bool.and_eq_true, Bool.not_eq_true']
    rw [hfun]
    exact hreg

/-- A vector without duplicates passes the check. -/
theorem conclude_done (cfg : Config) {available : List Server}
    (h : (hosts available).Nodup) :
    conclude cfg available = .done available := by
  have hunique : nonUnique available = false := by
    rw [nonUnique, List.dedup_eq_self.mpr h, List.length_map]
    exact decide_eq_false (Nat.lt_irrefl _)
  rw [conclude, hunique, Bool.and_false]
  rfl

variable {env : Env D}

/-- What `init` comes to where nothing throws and nobody is available
twice. -/
theorem init_eq {cfg : Config} {w : Surroundings} {v : Vectors}
    (hv : Client.collect views (compressionChanged cfg env) w.examined
      env.servers = .ok v) {r : D × List Server}
    (hr : Client.refresh views cfg w
      (toQuery cfg (compressionChanged cfg env) v)
        (env.servers, v.available) = .ok r)
    (hnd : (hosts r.2).Nodup) :
    Client.init views cfg w env =
      (⟨if compressionChanged cfg env then
          Store.put env.misc "compressionType".toList
            (toDecimal cfg.compressionType.toInt)
        else env.misc, r.1⟩, .done r.2) := by
  have hdone := conclude_done cfg hnd
  have hstart : Client.init views cfg w env = advance views cfg w
    (advance views cfg w (env, .typed (compressionChanged cfg env))) := rfl
  rw [hstart]
  unfold toQuery at hr
  generalize compressionChanged cfg env = changed at hv hr
  cases changed with
  | true =>
      rw [if_pos rfl] at hr
      simp only [advance, hv, hr, hdone, if_true]
  | false =>
      rw [if_neg Bool.false_ne_true] at hr
      simp only [advance, hv, hr, hdone, Bool.false_eq_true, if_false]

/-- And where a query throws. -/
theorem init_error {cfg : Config} {w : Surroundings} {v : Vectors}
    {e : InitError}
    (hv : Client.collect views (compressionChanged cfg env) w.examined
      env.servers = .ok v)
    (hr : Client.refresh views cfg w
      (toQuery cfg (compressionChanged cfg env) v)
        (env.servers, v.available) = .error e) :
    Client.init views cfg w env = (env, .failed e) := by
  have hstart : Client.init views cfg w env = advance views cfg w
    (advance views cfg w (env, .typed (compressionChanged cfg env))) := rfl
  rw [hstart]
  unfold toQuery at hr
  generalize compressionChanged cfg env = changed at hv hr
  cases changed with
  | true =>
      rw [if_pos rfl] at hr
      simp only [advance, hv, hr]
  | false =>
      rw [if_neg Bool.false_ne_true] at hr
      simp only [advance, hv, hr]

/-- A whole run on a registered database dies of a query, and has changed
nothing; or it returns, and has classified every host. -/
theorem Registered.init_cases (h : Registered views env.servers reg)
    (cfg : Config) (w : Surroundings) :
    ((∃ host, isKnown cfg env.servers host = true ∧
        isFresh views (compressionChanged cfg env) w env.servers host =
          false ∧ ¬Loggable cfg.logsWarnings (w.query host).1) ∧
      ∃ e, Client.init views cfg w env = (env, .failed e)) ∨
    (∀ host, isKnown cfg env.servers host = true →
      isFresh views (compressionChanged cfg env) w env.servers host =
        false → Loggable cfg.logsWarnings (w.query host).1) ∧
    ∃ env' available,
      Client.init views cfg w env = (env', .done available) ∧
      Classified views (compressionChanged cfg env) cfg w env.servers reg
        (env'.servers, available) := by
  obtain ⟨v, hv, -, -, hvector⟩ :=
    h.sorted (compressionChanged cfg env) cfg w
  by_cases hcalm : Calm cfg w
      (hosts (toQuery cfg (compressionChanged cfg env) v))
  · refine .inr ⟨fun host hknown hfresh =>
      hcalm host ((hvector host).mpr ⟨hknown, hfresh⟩), ?_⟩
    obtain ⟨db', hr⟩ :=
      refresh_ok views hcalm (env.servers, v.available)
    have hc := h.classified hv hr
    exact ⟨_, _, init_eq hv hr hc.nodup, hc⟩
  · refine .inl ⟨?_, ?_⟩
    · unfold Calm at hcalm
      push Not at hcalm
      obtain ⟨host, hm, hlogs, hunlisted⟩ := hcalm
      obtain ⟨hknown, hfresh⟩ := (hvector host).mp hm
      exact ⟨host, hknown, hfresh, fun hnamed => hunlisted (hnamed hlogs)⟩
    · obtain ⟨e, he⟩ :=
        refresh_error views hcalm (env.servers, v.available)
      exact ⟨_, init_error hv he⟩

/-- What a run that returns has done. -/
theorem Registered.init_done (h : Registered views env.servers reg)
    {cfg : Config} {w : Surroundings} {env' : Env D}
    {available : List Server}
    (hinit : Client.init views cfg w env = (env', .done available)) :
    Classified views (compressionChanged cfg env) cfg w env.servers reg
      (env'.servers, available) := by
  rcases h.init_cases cfg w with ⟨-, e, he⟩ | ⟨-, _, _, hdone, hc⟩
  · rw [hinit] at he
    cases he
  · rw [hinit] at hdone
    cases hdone
    exact hc

-- ============================================================ the database

/-- The stored compression type is the run's, and the host has a record
whose age passes a check. -/
def Aged (views : Views) (cfg : Config) (env : Env D) (host : Str)
    (check : UInt64 → Prop) : Prop :=
  compressionChanged cfg env = false ∧
    ∃ v age, Store.get env.servers (key host .age) = some v ∧
      views.u64.fromSv v = some age ∧ check age

/-- A host is fresh: its age is at most ten seconds. -/
def Fresh (views : Views) (cfg : Config) (w : Surroundings) (env : Env D)
    (host : Str) : Prop :=
  Aged views cfg env host fun age =>
    (w.examined host).toInt - age.toNat * second ≤ 10 * second

/-- The run takes a host over from the database: it finds it fresh. -/
def FoundFresh (views : Views) (cfg : Config) (w : Surroundings)
    (env : Env D) (host : Str) : Prop :=
  Aged views cfg env host fun age =>
    isExpired (w.examined host) age = false

/-- The host has records, or is configured. -/
def Known (cfg : Config) (env : Env D) (host : Str) : Prop :=
  (Store.get env.servers (key host .name)).isSome = true ∨
    host ∈ cfg.servers

theorem Registered.known (h : Registered views env.servers reg)
    {cfg : Config} {host : Str} :
    isKnown cfg env.servers host = true ↔ Known cfg env host := by
  rw [isKnown, Known, Bool.or_eq_true, decide_eq_true_iff,
    decide_eq_true_iff, h.mem_scannedHosts, h.represents.get,
    Option.isSome_map]

theorem Registered.foundFresh (h : Registered views env.servers reg)
    {cfg : Config} {w : Surroundings} {host : Str} :
    isFresh views (compressionChanged cfg env) w env.servers host = true ↔
      FoundFresh views cfg w env host := by
  rw [isFresh, FoundFresh, Aged, Bool.and_eq_true, Bool.and_eq_true,
    Bool.not_eq_true', Bool.not_eq_true', decide_eq_true_iff,
    h.mem_scannedHosts, and_assoc]
  refine and_congr_right fun _ => ?_
  rw [isOld, view, h.represents.get]
  cases hr : reg host with
  | none => simp
  | some r =>
      obtain ⟨age, hage⟩ := (h.valid host r hr).age
      simp only [Option.map_some, Option.getD_some, hage, Option.isSome_some,
        true_and]
      constructor
      · exact fun hyoung => ⟨_, age, rfl, hage, hyoung⟩
      · intro hex
        obtain ⟨v, age', hv, hage', hyoung⟩ := hex
        cases hv
        rw [hage] at hage'
        cases hage'
        exact hyoung

/-- The difference the age check works with. -/
theorem isExpired_iff {now : Int64} {age : UInt64} :
    isExpired now age = true ↔
      10 * second < (now.toInt - age.toNat * second).bmod (2 ^ 64) := by
  have hlimit : (10 * Int64.ofInt second).toInt = 10 * second := by decide
  have hunit : (Int64.ofInt second).toInt = second := by decide
  have hage : age.toInt64.toInt = (age.toNat : Int).bmod (2 ^ 64) :=
    BitVec.toInt_eq_toNat_bmod _
  rw [isExpired, decide_eq_true_iff, gt_iff_lt, Int64.lt_iff_toInt_lt,
    hlimit, Int64.toInt_sub, Int64.toInt_mul, hunit, hage,
    Int.bmod_mul_bmod, Int.sub_bmod_bmod]

/-- It does not wrap on a record that is old. -/
theorem isExpired_of_old {now : Int64} {age : UInt64}
    (h : 10 * second < now.toInt - age.toNat * second) :
    isExpired now age = true := by
  have hlt := now.toInt_lt
  rw [isExpired_iff, Int.bmod_eq_of_le]
  · exact h
  · unfold second at h ⊢
    omega
  · unfold second
    omega

/-- What a run takes over is fresh. The converse fails where the age check
wraps. -/
theorem FoundFresh.fresh {cfg : Config} {w : Surroundings} {host : Str}
    (h : FoundFresh views cfg w env host) : Fresh views cfg w env host := by
  obtain ⟨hsame, v, age, hv, hage, hyoung⟩ := h
  refine ⟨hsame, v, age, hv, hage, ?_⟩
  by_contra hold
  rw [isExpired_of_old (not_le.mp hold)] at hyoung
  cases hyoung

/-- The record a refreshed host has is the one `updateServer` writes. -/
theorem Registered.get_updateServer (h : Registered views db reg)
    (compilerName : Str) (now : Int64) (page server : Str)
    (queryAnswer : QueryAnswer) (f : Field) :
    Store.get (updateServer views compilerName now page db server
      queryAnswer) (key server f) = some (newRecord views compilerName now
        page server queryAnswer (reg server) f) := by
  rw [updateServer_eq h,
    get_putFields_self key_injective (mem_updateOrder f)]

/-- `insert` loses and invents nothing. -/
theorem candidates_perm (available : List Server) :
    (candidates available).entries.Perm available := by
  have hfold : ∀ b : Bag Server.load,
      (available.foldl Bag.insert b).entries.Perm (b.entries ++ available) := by
    induction available with
    | nil => simp
    | cons s rest ih =>
        intro b
        apply (ih _).trans
        exact ((b.insert_perm s).append_right rest).trans
          List.perm_middle.symm
  exact hfold Bag.empty

-- ============================================================== the theorem

/-- The queries a run makes of some hosts: it goes no further than one it
dies of. -/
def untilDead (cfg : Config) (w : Surroundings) : List Str → List Str
  | [] => []
  | host :: rest =>
      if Loggable cfg.logsWarnings (w.query host).1 then
        host :: untilDead cfg w rest
      else [host]

theorem untilDead_calm {cfg : Config} {w : Surroundings} {names : List Str}
    (h : Calm cfg w names) : untilDead cfg w names = names := by
  induction names with
  | nil => rfl
  | cons host rest ih =>
      rw [untilDead, if_pos (h host (List.mem_cons_self ..)),
        ih fun host hm => h host (List.mem_cons_of_mem _ hm)]

/-- The hosts `init` queries. -/
def initQueries (views : Views) (cfg : Config) (w : Surroundings)
    (env : Env D) : List Str :=
  match collect views (compressionChanged cfg env) w.examined
      env.servers with
  | .error _ => []
  | .ok v => untilDead cfg w
      (hosts (toQuery cfg (compressionChanged cfg env) v))

/-- What a run is to do with every host: it returns, the candidates are the
fresh hosts and those that answered, each once, those that did not are gone
from the database, and those that did have the record `updateServer`
writes. -/
def Classifies (views : Views) (cfg : Config) (w : Surroundings)
    (env : Env D) : Prop :=
  ∃ env' available, init views cfg w env = (env', .done available) ∧
    (hosts (candidates available).entries).Nodup ∧
    (∀ host, host ∈ hosts (candidates available).entries ↔
      Fresh views cfg w env host ∨
        Known cfg env host ∧ (w.query host).1.code = 0) ∧
    (∀ host, Known cfg env host → ¬Fresh views cfg w env host →
      (w.query host).1.code ≠ 0 →
      ∀ f, Store.get env'.servers (key host f) = none) ∧
    ∀ host ∈ initQueries views cfg w env, (w.query host).1.code = 0 →
      Store.get env'.servers (key host .age) =
        some (views.u64.toSv (mtime (w.written host))) ∧
      ∀ f, Store.get env'.servers (key host f) =
        Store.get (updateServer views cfg.compilerName (w.written host)
          (w.page host) env.servers host (w.query host).2) (key host f)

/-- A run that returns has queried the known hosts it has not taken over. -/
theorem Registered.mem_initQueries (h : Registered views env.servers reg)
    {cfg : Config} {w : Surroundings}
    (hcalm : ∀ host, isKnown cfg env.servers host = true →
      isFresh views (compressionChanged cfg env) w env.servers host =
        false → Loggable cfg.logsWarnings (w.query host).1) {host : Str} :
    host ∈ initQueries views cfg w env ↔
      isKnown cfg env.servers host = true ∧
        isFresh views (compressionChanged cfg env) w env.servers host =
          false := by
  obtain ⟨v, hv, -, -, hvector⟩ :=
    h.sorted (compressionChanged cfg env) cfg w
  rw [initQueries, hv]
  dsimp only
  rw [untilDead_calm fun host hm => hcalm host ((hvector host).mp hm).1
    ((hvector host).mp hm).2, hvector]

theorem Registered.notFoundFresh (h : Registered views env.servers reg)
    {cfg : Config} {w : Surroundings} {host : Str} :
    isFresh views (compressionChanged cfg env) w env.servers host = false ↔
      ¬FoundFresh views cfg w env host := by
  rw [← h.foundFresh, Bool.not_eq_true]

/-- A fresh host has a record. -/
theorem Registered.known_of_fresh (h : Registered views env.servers reg)
    {cfg : Config} {w : Surroundings} {host : Str}
    (hfresh : Fresh views cfg w env host) : Known cfg env host := by
  obtain ⟨-, v, age, hv, -⟩ := hfresh
  rw [h.represents.get] at hv
  obtain ⟨r, hr, -⟩ := Option.map_eq_some_iff.mp hv
  refine .inl ?_
  rw [h.represents.get, hr]
  rfl

section

variable {cfg : Config} {w : Surroundings} {available : List Server}
variable {host : Str} {db' : D}
variable (h : Registered views env.servers reg)
variable (hc : Classified views (compressionChanged cfg env) cfg w
  env.servers reg (db', available))

include h hc in
/-- The candidates of a run that returns. -/
theorem Registered.mem_candidates :
    host ∈ hosts (candidates available).entries ↔
      FoundFresh views cfg w env host ∨
        Known cfg env host ∧ (w.query host).1.code = 0 := by
  rw [hosts, ((candidates_perm available).map Server.server).mem_iff,
    hc.available, h.foundFresh, h.known, answers, decide_eq_true_iff]

include h hc in
/-- The record it leaves of a host it has queried. -/
theorem Registered.get_queried (hknown : Known cfg env host)
    (hfresh : ¬FoundFresh views cfg w env host) (f : Field) :
    Store.get db' (key host f) =
      (outcome views cfg w host (reg host)).map fun r => r f := by
  rw [hc.registered.represents.get, if_pos]
  rw [Bool.and_eq_true, Bool.not_eq_true', h.notFoundFresh, h.known]
  exact ⟨hknown, hfresh⟩

end

/-- A run classifies every host exactly when no host it has to query fails
with a status that has no name while warnings are logged, and every fresh
host that it takes for old answers. -/
theorem init_classifies_iff (h : WellFormed views env.servers)
    (cfg : Config) (w : Surroundings) :
    Classifies views cfg w env ↔
      ∀ host, Known cfg env host → ¬FoundFresh views cfg w env host →
        Loggable cfg.logsWarnings (w.query host).1 ∧
          (Fresh views cfg w env host → (w.query host).1.code = 0) := by
  obtain ⟨reg, hreg⟩ := h
  rcases hreg.init_cases cfg w with
    ⟨⟨host, hknown, hfresh, hdies⟩, e, he⟩ |
      ⟨hcalm, env', available, hinit, hc⟩
  · refine iff_of_false (fun hclass => ?_) fun hall => ?_
    · obtain ⟨env', available, hdone, -⟩ := hclass
      rw [hdone] at he
      cases he
    · exact hdies (hall host (hreg.known.mp hknown)
        (hreg.notFoundFresh.mp hfresh)).1
  constructor
  · intro hclass host hknown hfresh
    refine ⟨hcalm host (hreg.known.mpr hknown)
      (hreg.notFoundFresh.mpr hfresh), fun hyoung => ?_⟩
    obtain ⟨_, _, hdone, -, hall, -⟩ := hclass
    rw [hinit] at hdone
    cases hdone
    have hin := (hall host).mpr (.inl hyoung)
    exact (((hreg.mem_candidates hc).mp hin).resolve_left hfresh).2
  · intro hall
    have hperm := (candidates_perm available).map Server.server
    refine ⟨env', available, hinit, hperm.nodup_iff.mpr hc.nodup,
      fun host => ?_, fun host hknown hfresh hno f => ?_,
      fun host hm hok => ?_⟩
    · rw [hreg.mem_candidates hc]
      refine ⟨fun hin => hin.imp_left FoundFresh.fresh, fun hin => ?_⟩
      rcases hin with hyoung | hans
      · -- a fresh host that is taken for old answers
        by_cases htaken : FoundFresh views cfg w env host
        · exact .inl htaken
        · have hknown := hreg.known_of_fresh hyoung
          exact .inr ⟨hknown, (hall host hknown htaken).2 hyoung⟩
      · exact .inr hans
    · rw [hreg.get_queried hc hknown fun htaken => hfresh htaken.fresh,
        outcome, if_neg hno]
      rfl
    · obtain ⟨hknown, hfresh⟩ := (hreg.mem_initQueries hcalm).mp hm
      have hget := hreg.get_queried hc (hreg.known.mp hknown)
        (hreg.notFoundFresh.mp hfresh)
      refine ⟨?_, fun f => ?_⟩
      · rw [hget, outcome, if_pos hok]
        rfl
      · rw [hget, outcome, if_pos hok, hreg.get_updateServer]
        exact Option.map_some ..

/-- A first run with one host configured twice and one that is down. -/
theorem init_classifies_first :
    let cfg : Config := ⟨["h".toList, "g".toList, "h".toList], 1,
      "gcc".toList, true, false⟩
    let w : Surroundings := ⟨fun _ => 0, fun server =>
      (if server = "h".toList then ⟨0, [], []⟩ else ⟨14, [], []⟩,
        ⟨true, true, 700, 8⟩), fun _ => 0, fun _ => []⟩
    let env : Env (Std.ExtTreeMap Str Str compare) := State.start.env
    Classifies littleEndian cfg w env := by
  intro cfg w env
  have hwf : WellFormed littleEndian env.servers := ⟨_, Registered.empty⟩
  refine (init_classifies_iff hwf cfg w).mpr fun host _ _ => ⟨?_, ?_⟩
  · intro _
    show Listed (if host = "h".toList then (⟨0, [], []⟩ : ReceivedStatus)
      else ⟨14, [], []⟩).code
    split <;> decide
  · intro hfresh
    obtain ⟨-, v, -, hv, -⟩ := hfresh
    have hnone : Store.get env.servers (key host .age) = none :=
      Store.get_empty _
    rw [hnone] at hv
    cases hv

/-- The records of one host, of an age. -/
def recordsOf (age : UInt64) : Std.ExtTreeMap Str Str compare :=
  putFields key "h".toList (Function.update (newRecord littleEndian
    "gcc".toList 0 [] "h".toList ⟨true, true, 7, 8⟩ none) .age
      (littleEndian.u64.toSv age)) updateOrder Store.empty

theorem recordsOf_wellFormed (age : UInt64) :
    WellFormed littleEndian (recordsOf age) := by
  refine ⟨_, Represents.empty.write key_injective _ _ mem_updateOrder, ?_⟩
  intro host r hr
  by_cases hh : host = "h".toList
  · subst hh
    rw [Function.update_self] at hr
    cases hr
    exact ⟨rfl, ⟨7, rfl, by decide⟩, ⟨age, littleEndian.u64.fromSv_toSv age⟩⟩
  · rw [Function.update_of_ne hh] at hr
    cases hr

/-- A run in 2023 with one server, which does not answer. -/
def downWith (code : Int32) : Surroundings :=
  ⟨fun _ => 1700000000000000000, fun _ => (⟨code, [], []⟩, ⟨false, false,
    0, 0⟩), fun _ => 1700000000000000000, fun _ => []⟩

/-- A run dies of a status that has no name, and has no candidates; and one
whose age check wraps purges a server that is fresh. -/
theorem unclassified :
    let cfg : Config := ⟨["h".toList], 1, "gcc".toList, true, false⟩
    let start : Env (Std.ExtTreeMap Str Str compare) := State.start.env
    let stored : Env (Std.ExtTreeMap Str Str compare) :=
      ⟨Store.put Store.empty "compressionType".toList "1".toList,
        recordsOf 18446744074⟩
    WellFormed littleEndian start.servers ∧
      ¬Classifies littleEndian cfg (downWith 17) start ∧
      WellFormed littleEndian stored.servers ∧
      ¬Classifies littleEndian cfg (downWith 14) stored := by
  intro cfg start stored
  refine ⟨⟨_, Registered.empty⟩, fun hclass => ?_,
    recordsOf_wellFormed _, fun hclass => ?_⟩
  · obtain ⟨env', available, hinit, -⟩ := hclass
    have hdies : (init littleEndian cfg (downWith 17) start).2 =
        .failed (.exception (.runtimeError
          "unhandled status in mapGRPCStatus 17".toList)) := by
      decide +kernel
    rw [hinit] at hdies
    cases hdies
  · obtain ⟨env', available, hinit, -, hmem, -⟩ := hclass
    have hnobody : (init littleEndian cfg (downWith 14) stored).2 =
        .done [] := by decide +kernel
    rw [hinit] at hnobody
    cases hnobody
    have hin := (hmem "h".toList).mpr (.inl ⟨by decide +kernel, _,
      18446744074, by rfl, littleEndian.u64.fromSv_toSv _, by decide⟩)
    exact absurd hin List.not_mem_nil

end Distplusplus.Client
