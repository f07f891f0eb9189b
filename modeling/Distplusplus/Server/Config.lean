/-
The server's settings (`server/config.cpp`; the log level of
`common/common.cpp`).

Every option has a default, may be set on the command line, and may be
overridden by a variable of the environment. The command line is read by
`boost::program_options`, so it is a parameter: it turns the defaults into
what is set. The environment is `getenv`.

A numeric variable goes through one of C's conversions, and only `errno` is
looked at. What that accepts is `Lib.Numeral`'s business; which of it is a
number is decided in `Server.Proofs.Override`.
-/
import Distplusplus.Lib.Numeral
import Distplusplus.Server.Machine

namespace Distplusplus.Server.Setup

open Lib Common

-- ============================================================= environment

/-- How `getConfig` ends other than by returning. -/
inductive Stop where
  | exit (status : Int32)
  | throw (exception : Exception)
  deriving DecidableEq, Repr

/-- An exception on its way out. -/
def thrown {α : Type} : Except Exception α → Except Stop α
  | .ok a => .ok a
  | .error e => .error (.throw e)

/-- `getFromEnv<std::string>`; `ret` is the option's value so far. -/
def getFromEnvString (getenv : Str → Option Str) (ret envName : Str) : Str :=
  (getenv envName).getD ret

/-- The numeric `getFromEnv`, by the conversion it uses. -/
def getFromEnvWith {α : Type} (convert : Str → Converted α)
    (getenv : Str → Option Str) (ret : α) (envName : Str) :
    Except Exception α :=
  match getenv envName with
  | none => .ok ret
  | some env =>
      if (convert env).errno ≠ 0 then .error (.runtimeError
        ("error converting ".toList ++ envName ++ " env ".toList ++ env ++
          " to unsigned long long - errno is ".toList ++
          toDecimal (convert env).errno))
      else .ok (convert env).value

/-- `getFromEnv<std::uint64_t>`. -/
def getFromEnvUInt64 : (Str → Option Str) → UInt64 → Str →
    Except Exception UInt64 :=
  getFromEnvWith strtoull

/-- `getFromEnv<std::int64_t>`; its error speaks of `unsigned` as well. -/
def getFromEnvInt64 : (Str → Option Str) → Int64 → Str →
    Except Exception Int64 :=
  getFromEnvWith strtoll

-- ================================================================= logging

/-- The severities of `boost::log::trivial`. -/
inductive Severity where
  | trace
  | debug
  | info
  | warning
  | error
  | fatal
  deriving DecidableEq, Repr

/-- The cases of `initBoostLoggingCore`, in its order. -/
def logLevels : List (String × Severity) := [
  ("trace", .trace), ("debug", .debug), ("info", .info),
  ("warning", .warning), ("error", .error), ("fatal", .fatal)]

/-- `initBoostLogging`; the result is the severity records are filtered
by. Here too the environment has the last word. -/
def initBoostLogging (getenv : Str → Option Str) (level : Option Str) :
    Except Exception Severity :=
  let logLevel := getFromEnvString getenv (level.getD "warning".toList)
    "DISTPLUSPLUS_LOG_LEVEL".toList
  match logLevels.find? fun l => l.1.toList = logLevel with
  | some l => .ok l.2
  | none => .error (.invalidArgument
      ("unrecognized log level ".toList ++ logLevel))

-- =============================================================== getConfig

/-- `Config`. -/
structure Config where
  compressionType : CompressionType
  compressionLevel : Int64
  maxJobs : UInt64
  listenAddress : Str
  reservationTimeout : UInt64
  deriving DecidableEq, Repr

/-- The options, as `variables_map` holds them. -/
structure VariablesMap where
  compress : Str
  compressionLevel : Int64
  help : Bool
  jobs : UInt64
  listenAddress : Str
  logLevel : Option Str
  reservationTimeout : UInt64
  deriving DecidableEq, Repr

/-- The defaults of the options; the compression algorithm's is the
build's `DISTPLUSPLUS_DEFAULT_COMPRESSION_STR`. -/
def defaults (coreCount : UInt64) (defaultCompression : Str) :
    VariablesMap where
  compress := defaultCompression
  compressionLevel := 1
  help := false
  jobs := coreCount
  listenAddress := "127.0.0.1:3633".toList
  logLevel := none
  reservationTimeout := 1

/-- The compression algorithm a user can ask for. -/
def userCompressionType (name : Str) : Except Stop CompressionType :=
  if name = "NONE".toList then .ok CompressionType.NONE
  else if name = "zstd".toList then .ok CompressionType.zstd
  else .error (.exit 1)

/-- `getConfig` once the command line is read. -/
def readEnvironment (getenv : Str → Option Str) (varMap : VariablesMap) :
    Except Stop Config := do
  let _ ← thrown (initBoostLogging getenv varMap.logLevel)
  let compressionType ← userCompressionType
    (getFromEnvString getenv varMap.compress "DISTPLUSPLUS_COMPRESS".toList)
  let compressionLevel ← thrown (getFromEnvInt64 getenv
    varMap.compressionLevel "DISTPLUSPLUS_COMPRESSION_LEVEL".toList)
  let maxJobs ← thrown (getFromEnvUInt64 getenv varMap.jobs
    "DISTPLUSPLUS_JOBS".toList)
  if maxJobs = 0 then .error (.exit 1)
  else do
    let reservationTimeout ← thrown (getFromEnvUInt64 getenv
      varMap.reservationTimeout "DISTPLUSPLUS_RESERVATION_TIMEOUT".toList)
    .ok {
      compressionType := compressionType
      compressionLevel := compressionLevel
      maxJobs := maxJobs
      listenAddress := getFromEnvString getenv varMap.listenAddress
        "DISTPLUSPLUS_LISTEN_ADDRESS".toList
      reservationTimeout := reservationTimeout }

/-- `getConfig`. -/
def getConfig (coreCount : UInt64) (defaultCompression : Str)
    (commandLine : VariablesMap → Except Exception VariablesMap)
    (getenv : Str → Option Str) : Except Stop Config :=
  if coreCount = 0 then .error (.exit 1)
  else do
    let varMap ← thrown (commandLine (defaults coreCount defaultCompression))
    if varMap.help then .error (.exit 0)
    else readEnvironment getenv varMap

/-- What `main` makes of it: the members of `Server`. -/
def Config.server (config : Config) : Server.Config :=
  ⟨config.maxJobs, config.reservationTimeout⟩

/-- The compressor factory `main` makes. -/
def Config.compressorFactory (config : Config) : CompressorFactory :=
  ⟨config.compressionType, config.compressionLevel⟩

example : getConfig 4 "zstd".toList .ok (fun _ => none) =
    .ok ⟨CompressionType.zstd, 1, 4, "127.0.0.1:3633".toList, 1⟩ := rfl

end Distplusplus.Server.Setup
