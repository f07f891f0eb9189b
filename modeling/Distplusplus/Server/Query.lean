/-
One `Query` call (`server/server.cpp`).

A query goes through two of the checks of `Distribute`, with other words for
its refusals, and reads the load and what the build can do. It changes
nothing.

The load average over `jobsMax`, in per cent and narrowed to 32 bits, is a
double before it is anything else. It is a parameter, `none` where
`getloadavg` fails.
-/
import Distplusplus.Server.Distribute

namespace Distplusplus.Server

open Lib Common

/-- What is reported as the load. -/
def percent : Option UInt32 → UInt32
  | none => 0
  | some loadavg => min loadavg 100

/-- `Query`. The sentinels of the enum are values like the other unknown
ones: the flag stays as it is. -/
def query (host : Host) (jobsMax : UInt64) (loadavg : Option UInt32)
    (q : ServerQuery) : Except Exception (Status × QueryAnswer) :=
  let answer : QueryAnswer := ⟨false, false, 0, 0⟩
  if !samePath (filename q.compiler) q.compiler then
    .ok (⟨.INVALID_ARGUMENT, "compiler ".toList ++ q.compiler ++
      " does not look like a basename".toList, []⟩, answer)
  else
    match checkCompilerAllowed host q.compiler with
    | .error e => .error e
    | .ok false => .ok (⟨.INVALID_ARGUMENT, "compiler ".toList ++
        q.compiler ++ " is not on allowlist".toList, []⟩, answer)
    | .ok true =>
        let answer := { answer with compilerSupported := true }
        let answer := { answer with currentLoad := percent loadavg }
        let answer :=
          if q.desiredCompressionType = CompressionType.NONE then
            { answer with compressionTypeSupported := true }
          else if q.desiredCompressionType = CompressionType.zstd then
            { answer with compressionTypeSupported := host.zstd.isSome }
          else answer
        .ok (Status.ok, { answer with maxJobs := jobsMax })

end Distplusplus.Server
