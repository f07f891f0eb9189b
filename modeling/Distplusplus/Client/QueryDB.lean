/-
The client's cache of servers (`client/client.cpp`, `QueryHelper`).

The cache is an LMDB environment shared by all client processes of a user.
It holds six records for each known host; `init` reads them, queries what
is missing or old, and leaves the candidates in `client->servers`.

# What stands for LMDB

A named database is a `Store` (parameter `D`): keys in order, `put`, `get`,
`del`, a cursor. `to_sv` and `from_sv` are a `View`: the bytes of an object,
and the object back; `from_sv` throws on a view of another size (`none`).
`get` leaves the view it is given alone when there is no such key, so a
missing record reads as the empty string.

`txn::begin` is given `O_RDONLY`, which is 0, where it means `MDB_RDONLY`:
every transaction here is a write transaction, and one runs at a time.

# What is atomic

`advance` takes a run from one transaction to the next. A run that finds
the compression type changed does the rest in one parent transaction,
queries included; another run scans in one transaction and writes in a
second. An exception ends the open transaction without a trace, and a run
that dies between two is one that takes no further step. One exception comes
out of the query loop: a query that fails is logged with the name of its
status, and `mapGRPCStatus` throws where the number has none.

`Surroundings` is what a run is told from outside: the clock when it looks
at a host's record and when it writes one, the statuses and answers of its
queries, and the bytes LMDB keeps behind a stored compiler list (`data()` of
a view has no end of its own).

# Times

A duration is a signed 64-bit count, of nanoseconds but for the stored age,
and arithmetic on it wraps.
-/
import Distplusplus.Common.Protocol
import Distplusplus.Lib.Bag
import Distplusplus.Lib.Machine
import Distplusplus.Lib.Store
import Distplusplus.Common.Tempfile
import Mathlib.Algebra.Group.Nat.Defs
import Mathlib.Logic.Function.Iterate

namespace Distplusplus.Client

open Lib Common

-- ===================================================================== keys

/-- The records of a host. -/
inductive Field where
  | name
  | age
  | compressionTypeSupported
  | supportedCompilers
  | currentLoad
  | maxJobs
  deriving DecidableEq, Repr

/-- What a record's key has behind the host. -/
def Field.suffix : Field → Str
  | .name => "_name".toList
  | .age => "_age".toList
  | .compressionTypeSupported => "_compressionTypeSupported".toList
  | .supportedCompilers => "_supportedCompilers".toList
  | .currentLoad => "_currentLoad".toList
  | .maxJobs => "_maxJobs".toList

/-- `host + "_field"`. -/
def key (host : Str) (field : Field) : Str := host ++ field.suffix

/-- `key.ends_with("_name")`. -/
def isNameKey (key : Str) : Bool := "_name".toList.isSuffixOf key

-- ==================================================================== values

/-- `lmdb::to_sv` and `lmdb::from_sv` at a type. -/
structure View (T : Type) where
  toSv : T → Str
  fromSv : Str → Option T
  fromSv_toSv : ∀ x, fromSv (toSv x) = some x

/-- The views of the record types. -/
structure Views where
  u32 : View UInt32
  u64 : View UInt64
  bool : View Bool

/-- The bytes of a number, least significant first. -/
def bytes : Nat → Nat → Str
  | 0, _ => []
  | size + 1, n => Char.ofNat (n % 256) :: bytes size (n / 256)

/-- The number of some bytes. -/
def ofBytes : Str → Nat
  | [] => 0
  | c :: s => c.toNat + 256 * ofBytes s

theorem length_bytes (size n : Nat) : (bytes size n).length = size := by
  induction size generalizing n with
  | zero => rfl
  | succ size ih => rw [bytes, List.length_cons, ih]

/-- Enough bytes hold the number. -/
theorem ofBytes_bytes {size n : Nat} (h : n < 256 ^ size) :
    ofBytes (bytes size n) = n := by
  induction size generalizing n with
  | zero =>
      rw [pow_zero, Nat.lt_one_iff] at h
      rw [h]
      rfl
  | succ size ih =>
      have hdiv : n / 256 < 256 ^ size := by
        rw [Nat.pow_succ] at h
        omega
      have hvalid : (n % 256).isValidChar := .inl (by omega)
      have hbyte : (Char.ofNat (n % 256)).toNat = n % 256 := by
        rw [Char.ofNat, dif_pos hvalid]
        rfl
      rw [bytes, ofBytes, ih hdiv, hbyte]
      omega

/-- The views on a little-endian machine. -/
def littleEndian : Views where
  u32 :=
    { toSv := fun x => bytes 4 x.toNat
      fromSv := fun s =>
        if s.length = 4 then some (UInt32.ofNat (ofBytes s)) else none
      fromSv_toSv := fun x => by
        rw [if_pos (length_bytes ..), ofBytes_bytes x.toNat_lt,
          UInt32.ofNat_toNat] }
  u64 :=
    { toSv := fun x => bytes 8 x.toNat
      fromSv := fun s =>
        if s.length = 8 then some (UInt64.ofNat (ofBytes s)) else none
      fromSv_toSv := fun x => by
        rw [if_pos (length_bytes ..), ofBytes_bytes x.toNat_lt,
          UInt64.ofNat_toNat] }
  bool :=
    { toSv := fun x => bytes 1 x.toNat
      fromSv := fun s =>
        if s.length = 1 then some (decide (ofBytes s ≠ 0)) else none
      fromSv_toSv := fun x => by cases x <;> rfl }

/-- The two databases. -/
structure Env (D : Type) where
  misc : D
  servers : D

/-- What the user configured, whether warnings are logged, and how the
program was built. -/
structure Config where
  servers : List Str
  compressionType : CompressionType
  compilerName : Str
  logsWarnings : Bool
  ndebug : Bool

/-- What a run is told from outside. -/
structure Surroundings where
  examined : Str → Int64
  query : Str → ReceivedStatus × QueryAnswer
  written : Str → Int64
  page : Str → Str

/-- `struct Server`. -/
structure Server where
  currentLoad : UInt32
  server : Str
  deriving DecidableEq, Repr

/-- `std::less<Server>` compares this. -/
def Server.load (s : Server) : Nat := s.currentLoad.toNat

/-- The ways out of `init` other than returning. -/
inductive InitError where
  | lmdb
  | exception (e : Exception)
  deriving DecidableEq, Repr

variable {D : Type} [Store D Str Str] (views : Views)

/-- The view after `dbi.get` on a view that was empty. -/
def view (db : D) (key : Str) : Str := (Store.get db key).getD []

-- ============================================================ updateServer

/-- `duration_cast<seconds>(now).count()`, as the `uint64_t` it is put in. -/
def mtime (now : Int64) : UInt64 := (now / .ofInt second).toUInt64

/-- What `std::getline(istr, compiler, '/')` reads: nothing is left behind
a last separator. -/
def getlines (text : Str) : List Str :=
  if (segments text).getLast? = some [] then (segments text).dropLast
  else segments text

/-- The new compiler list, given the text of the stored one. -/
def editCompilers (compilerName : Str) (supported : Bool) (text : Str) :
    Str :=
  (getlines text).flatMap fun compiler =>
    if compiler = compilerName then
      if supported then compiler ++ "/".toList else []
    else compiler ++ "/".toList

/-- `updateServer`. -/
def updateServer (compilerName : Str) (now : Int64) (page : Str) (db : D)
    (server : Str) (queryAnswer : QueryAnswer) : D :=
  let db := Store.put db (key server .name) server
  let db := Store.put db (key server .age) (views.u64.toSv (mtime now))
  let db := Store.put db (key server .compressionTypeSupported)
    (views.bool.toSv queryAnswer.compressionTypeSupported)
  let db := Store.put db (key server .currentLoad)
    (views.u32.toSv (min queryAnswer.currentLoad 100))
  let db := Store.put db (key server .maxJobs)
    (views.u64.toSv queryAnswer.maxJobs)
  let newCompilers :=
    match Store.get db (key server .supportedCompilers) with
    | some supportedCompilers =>
        editCompilers compilerName queryAnswer.compilerSupported
          (cstr (supportedCompilers ++ page))
    | none =>
        if queryAnswer.compilerSupported then compilerName ++ "/".toList
        else []
  Store.put db (key server .supportedCompilers) newCompilers

/-- `removeServer`. -/
def removeServer (db : D) (server : Str) : D :=
  let db := Store.del db (key server .name)
  let db := Store.del db (key server .age)
  let db := Store.del db (key server .compressionTypeSupported)
  let db := Store.del db (key server .supportedCompilers)
  let db := Store.del db (key server .currentLoad)
  Store.del db (key server .maxJobs)

-- ==================================================================== init

/-- `compressionChanged`. -/
def compressionChanged (cfg : Config) (env : Env D) : Bool :=
  decide (view env.misc "compressionType".toList ≠
    toDecimal cfg.compressionType.toInt)

/-- The three vectors. -/
structure Vectors where
  existing : List Server
  expired : List Server
  available : List Server
  deriving DecidableEq, Repr

/-- `now - age > std::chrono::seconds{10}`. -/
def isExpired (now : Int64) (age : UInt64) : Bool :=
  decide (now - age.toInt64 * .ofInt second > 10 * .ofInt second)

/-- The cursor loop. -/
def collectLoop (changed : Bool) (examined : Str → Int64) (db : D) :
    List (Str × Str) → Vectors → Except InitError Vectors
  | [], v => .ok v
  | (k, value) :: rest, v =>
      if !isNameKey k then collectLoop changed examined db rest v
      else
        match views.u32.fromSv (view db (key value .currentLoad)) with
        | none => .error .lmdb
        | some currentLoad =>
            let server : Server := ⟨currentLoad, value⟩
            -- if compression changed, we have to renew all servers anyways
            if changed then
              collectLoop changed examined db rest
                { v with existing := v.existing ++ [server] }
            else
              match views.u64.fromSv (view db (key server.server .age)) with
              | none => .error .lmdb
              | some age =>
                  if isExpired (examined value) age then
                    collectLoop changed examined db rest
                      { v with expired := v.expired ++ [server] }
                  else
                    collectLoop changed examined db rest
                      { v with available := v.available ++ [server] }

/-- Collecting the hosts of the database. -/
def collect (changed : Bool) (examined : Str → Int64) (db : D) :
    Except InitError Vectors :=
  collectLoop views changed examined db (Store.scan db) ⟨[], [], []⟩

/-- The loop over `config.servers()`. -/
def register (available : List Server) : List Str → List Server → List Server
  | [], serverVector => serverVector
  | server :: rest, serverVector =>
      if (serverVector.any fun s => decide (server = s.server)) ||
          available.any fun s => decide (server = s.server) then
        register available rest serverVector
      else register available rest (serverVector ++ [⟨0, server⟩])

/-- The log record of a query that failed: a warning, with the name of the
status, unless the server is no longer reachable. -/
def logPurge (cfg : Config) (status : ReceivedStatus) :
    Except Exception Unit :=
  -- UNAVAILABLE
  if status.code = 14 then .ok ()
  else if cfg.logsWarnings then
    match mapGRPCStatus status.code with
    | .error e => .error e
    | .ok _ => .ok ()
  else .ok ()

/-- The loop that queries: update the reachable, purge the others. -/
def refresh (cfg : Config) (w : Surroundings) :
    List Server → D × List Server → Except InitError (D × List Server)
  | [], r => .ok r
  | server :: rest, (db, available) =>
      -- OK
      if (w.query server.server).1.code = 0 then
        refresh cfg w rest
          (updateServer views cfg.compilerName (w.written server.server)
            (w.page server.server) db server.server
            (w.query server.server).2,
          available ++ [{ server with
            currentLoad := (w.query server.server).2.currentLoad }])
      else
        match logPurge cfg (w.query server.server).1 with
        | .error e => .error (.exception e)
        | .ok _ =>
            refresh cfg w rest (removeServer db server.server, available)

/-- `client->servers` after `insert` of every element. -/
def candidates (available : List Server) : Bag Server.load :=
  available.foldl Bag.insert Bag.empty

/-- The uniqueness check of debug builds. -/
def nonUnique (available : List Server) : Bool :=
  decide ((available.map Server.server).dedup.length < available.length)

-- ============================================================ transactions

/-- Where a run of `init` is. -/
inductive Phase where
  | opened
  | typed (changed : Bool)
  | collected (v : Vectors)
  | done (available : List Server)
  | failed (e : InitError)
  deriving DecidableEq, Repr

/-- The end of `init`: the check, and the candidates. -/
def conclude (cfg : Config) (available : List Server) : Phase :=
  if !cfg.ndebug && nonUnique available then
    .failed (.exception (.runtimeError
      ("availableServers contained non-unique elements: ".toList ++
        available.flatMap fun s => '\n' :: s.server)))
  else .done available

/-- One transaction, and what the run does up to the next. -/
def advance (cfg : Config) (w : Surroundings) : Env D × Phase → Env D × Phase
  | (env, .opened) => (env, .typed (compressionChanged cfg env))
  | (env, .typed true) =>
      match collect views true w.examined env.servers with
      | .error e => (env, .failed e)
      | .ok v =>
          -- a throw leaves the parent transaction uncommitted
          match refresh views cfg w
              (register v.available cfg.servers v.existing)
              (env.servers, v.available) with
          | .error e => (env, .failed e)
          | .ok (servers, available) =>
              match conclude cfg available with
              | .failed e => (env, .failed e)
              | phase =>
                  (⟨Store.put env.misc "compressionType".toList
                      (toDecimal cfg.compressionType.toInt), servers⟩, phase)
  | (env, .typed false) =>
      match collect views false w.examined env.servers with
      | .error e => (env, .failed e)
      | .ok v => (env, .collected v)
  | (env, .collected v) =>
      match refresh views cfg w
          (register v.available cfg.servers v.expired)
          (env.servers, v.available) with
      | .error e => (env, .failed e)
      | .ok (servers, available) =>
          ({ env with servers := servers }, conclude cfg available)
  | (env, .done available) => (env, .done available)
  | (env, .failed e) => (env, .failed e)

/-- `QueryHelper::init`, with no other run in between. -/
def init (cfg : Config) (w : Surroundings) (env : Env D) : Env D × Phase :=
  (advance views cfg w)^[3] (env, .opened)

-- =============================================================== processes

/-- One client process in `init`. -/
structure Run where
  cfg : Config
  surroundings : Surroundings
  phase : Phase

/-- The environment and the processes that share it. -/
structure State (D : Type) where
  env : Env D
  runs : List Run

/-- Nothing has run yet. -/
def State.start : State D := ⟨⟨Store.empty, Store.empty⟩, []⟩

/-- A process starts, or a process goes through its next transaction. -/
inductive Event where
  | start (cfg : Config) (surroundings : Surroundings)
  | advance (i : Nat)

/-- One event. -/
def step (s : State D) : Event → Option (State D)
  | .start cfg w => some { s with runs := s.runs ++ [⟨cfg, w, .opened⟩] }
  | .advance i =>
      match s.runs[i]? with
      | none => none
      | some run =>
          let r := advance views run.cfg run.surroundings (s.env, run.phase)
          some ⟨r.1, s.runs.set i { run with phase := r.2 }⟩

end Distplusplus.Client
