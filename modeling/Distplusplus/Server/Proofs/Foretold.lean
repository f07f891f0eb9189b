/-
What a query foretells.

`Query` makes two of the checks of `Distribute`. So a compiler that is
refused here is refused there, a host whose allowlist cannot be read dies at
both, and a compression type reported as unsupported is one that
`Distribute` dies at. `Foretold` says it for each phase of the body, and
`query_foretells` for every job of every run and every query that finds the
allowlist and the build as the job does (`Alike`).
-/
import Distplusplus.Server.Query
import Distplusplus.Server.Proofs.Calls
import Distplusplus.Server.Proofs.Survival

namespace Distplusplus.Server

open Lib Common

variable {cfg : Config} {Q : State → Event → Prop} {clock : Int} {s : State}
variable {host : Host} {request : CompileRequest} {phase : Phase} {i : Nat}
variable {jobsMax : UInt64} {loadavg : Option UInt32} {asked : Host}

-- ============================================================== the replies

/-- The query is answered. -/
def Welcomes (reply : Except Exception (Status × QueryAnswer)) : Prop :=
  ∃ answer, reply = .ok (Status.ok, answer)

/-- It is answered, and the compression type is one of the build's. -/
def Supports (reply : Except Exception (Status × QueryAnswer)) : Prop :=
  ∃ answer, reply = .ok (Status.ok, answer) ∧
    answer.compressionTypeSupported = true

/-- It is refused. -/
def Refuses (reply : Except Exception (Status × QueryAnswer)) : Prop :=
  ∃ message answer, reply = .ok (⟨.INVALID_ARGUMENT, message, []⟩, answer)

/-- It aborts the server. -/
def Aborts (reply : Except Exception (Status × QueryAnswer)) : Prop :=
  ∃ e, reply = .error e

theorem percent_le (loadavg : Option UInt32) : percent loadavg ≤ 100 := by
  cases loadavg with
  | none => decide
  | some loadavg => exact Std.min_le_right

theorem query_refuses {q : ServerQuery}
    (h : samePath (filename q.compiler) q.compiler = false ∨
      checkCompilerAllowed host q.compiler = .ok false) :
    Refuses (query host jobsMax loadavg q) := by
  unfold query
  cases hs : samePath (filename q.compiler) q.compiler with
  | false => exact ⟨_, _, rfl⟩
  | true =>
      have hc := h.resolve_left (by rw [hs]; exact Bool.noConfusion)
      rw [hc]
      exact ⟨_, _, rfl⟩

theorem query_aborts {q : ServerQuery} {e : Exception}
    (hs : samePath (filename q.compiler) q.compiler = true)
    (hc : checkCompilerAllowed host q.compiler = .error e) :
    Aborts (query host jobsMax loadavg q) := by
  unfold query
  rw [hs, hc]
  exact ⟨e, rfl⟩

/-- The answer says what the build can do, and gives a load of at most
100. -/
theorem query_welcomes {q : ServerQuery}
    (hs : samePath (filename q.compiler) q.compiler = true)
    (hc : checkCompilerAllowed host q.compiler = .ok true) :
    ∃ answer, query host jobsMax loadavg q = .ok (Status.ok, answer) ∧
      answer.compressionTypeSupported =
        knownCompression host q.desiredCompressionType ∧
      answer.currentLoad ≤ 100 := by
  unfold query knownCompression
  rw [hs, hc]
  refine ⟨_, rfl, ?_⟩
  by_cases hnone : q.desiredCompressionType = CompressionType.NONE
  · rw [if_pos hnone, decide_eq_true hnone]
    exact ⟨rfl, percent_le loadavg⟩
  by_cases hzstd : q.desiredCompressionType = CompressionType.zstd
  · rw [if_neg hnone, if_pos hzstd, decide_eq_false hnone,
      decide_eq_true hzstd]
    exact ⟨rfl, percent_le loadavg⟩
  · rw [if_neg hnone, if_neg hzstd, decide_eq_false hnone,
      decide_eq_false hzstd]
    exact ⟨rfl, percent_le loadavg⟩

/-- Only a query that passes both checks is answered with `OK`. -/
theorem query_ok {q : ServerQuery} {status : Status} {answer : QueryAnswer}
    (h : query host jobsMax loadavg q = .ok (status, answer))
    (hok : status.code = .OK) :
    samePath (filename q.compiler) q.compiler = true ∧
      checkCompilerAllowed host q.compiler = .ok true ∧
      answer.compressionTypeSupported =
        knownCompression host q.desiredCompressionType ∧
      answer.currentLoad ≤ 100 := by
  have hrefuses : ¬Refuses (query host jobsMax loadavg q) := by
    intro hr
    obtain ⟨message, none', heq⟩ := hr
    rw [h] at heq
    cases heq
    cases hok
  cases hs : samePath (filename q.compiler) q.compiler with
  | false => exact absurd (query_refuses (.inl hs)) hrefuses
  | true =>
      cases hc : checkCompilerAllowed host q.compiler with
      | error e =>
          obtain ⟨e', he⟩ := query_aborts hs hc
          cases h.symm.trans he
      | ok allowed =>
          cases allowed with
          | false => exact absurd (query_refuses (.inr hc)) hrefuses
          | true =>
              obtain ⟨answer', heq, hanswer⟩ := query_welcomes hs hc
              cases h.symm.trans heq
              exact ⟨rfl, rfl, hanswer⟩

-- ================================================================ the job

/-- The query about a job's compiler and compression type. -/
def asking (request : CompileRequest) : ServerQuery :=
  ⟨request.compiler, request.inputFile.compressionType⟩

/-- How a job may return, given what the query about it says: refused where
the query is, or for its file name; or with the result of a compiler, or
refused for its data or its arguments. -/
def Returned (reply : Except Exception (Status × QueryAnswer))
    (request : CompileRequest) (status : Status) : Prop :=
  status.code = .INVALID_ARGUMENT ∧
      (Refuses reply ∨ sanitizeFile request.inputFile = false) ∨
    Supports reply ∧ (status = Status.ok ∨
      status.code = .INVALID_ARGUMENT ∧
        (status.message = "error in decompressor".toList ∨
          status.message = "job aborted due to invalid arguments".toList))

/-- What the query says about each phase of the job. -/
def Foretold (reply : Except Exception (Status × QueryAnswer))
    (request : CompileRequest) : Phase → Prop
  | .lookup | .sanitize => True
  | .allowlist => samePath (filename request.compiler) request.compiler = true
  | .decompress => Welcomes reply
  | .leave (.throw _) | .terminate _ => Aborts reply ∨ Welcomes reply
  | .leave (.ret status _) | .leave (.throwStatus status)
  | .returned status _ => Returned reply request status
  | _ => Supports reply

theorem Supports.welcomes {reply : Except Exception (Status × QueryAnswer)}
    (h : Supports reply) : Welcomes reply := by
  obtain ⟨answer, hreply, -⟩ := h
  exact ⟨answer, hreply⟩

/-- At a compression type the build does not know, the decompressor throws
what `Distribute` does not catch. -/
theorem decompressor_unknown {type : CompressionType}
    (h : knownCompression host type = false) (content : Str) :
    ∃ e, decompressor host.zstd type content = .error e ∧
      ∀ what, e ≠ .iosFailure what := by
  simp only [knownCompression, Bool.or_eq_false_iff, decide_eq_false_iff_not]
    at h
  obtain ⟨hnone, hzstd⟩ := h
  unfold decompressor
  rw [if_neg hnone]
  split
  case isTrue heq =>
    rw [decide_eq_true heq, Bool.true_and, Option.isSome_eq_false_iff,
      Option.isNone_iff_eq_none] at hzstd
    rw [hzstd]
    exact ⟨_, rfl, fun _ => Exception.noConfusion⟩
  case isFalse => exact ⟨_, rfl, fun _ => Exception.noConfusion⟩

theorem Foretold.destroyAll
    {reply : Except Exception (Status × QueryAnswer)} {exit : Exit}
    (hsup : Supports reply) (h : Foretold reply request (.leave exit))
    (nameMax : Nat) (files : List (Tempfile × List Str)) :
    Foretold reply request (destroyAll nameMax files exit) := by
  rcases destroyAll_cases nameMax files exit with heq | heq <;> rw [heq]
  · exact h
  · exact Or.inr hsup.welcomes

/-- Each step of the body goes where the query says. -/
theorem Foretold.step (h : Foretold (query host jobsMax loadavg
      (asking request)) request phase) :
    Foretold (query host jobsMax loadavg (asking request)) request
      (distributeStep host request phase) := by
  cases phase with
  | lookup => trivial
  | sanitize =>
      simp only [distributeStep]
      split
      case isTrue hno =>
        refine .inl ⟨rfl, ?_⟩
        cases hs : samePath (filename request.compiler) request.compiler with
        | false => exact .inl (query_refuses (.inl hs))
        | true =>
            simp only [sanitizeRequest, hs, Bool.not_true,
              Bool.false_eq_true, if_false, Bool.not_eq_true'] at hno
            exact .inr hno
      case isFalse hyes =>
        have hs := (sanitizeRequest_iff.mp (by simpa using hyes)).1
        exact (samePath_filename _).mpr hs
  | allowlist =>
      simp only [distributeStep]
      cases hc : checkCompilerAllowed host request.compiler with
      | error e => exact Or.inl (query_aborts h hc)
      | ok allowed =>
          cases allowed with
          | false => exact .inl ⟨rfl, .inl (query_refuses (.inr hc))⟩
          | true =>
              obtain ⟨answer, hreply, -⟩ :=
                query_welcomes (q := asking request) h hc
              exact ⟨answer, hreply⟩
  | decompress =>
      simp only [distributeStep]
      cases hk : knownCompression host request.inputFile.compressionType with
      | false =>
          obtain ⟨e, he, hne⟩ :=
            decompressor_unknown hk request.inputFile.content
          rw [he]
          cases e with
          | iosFailure what => exact absurd rfl (hne what)
          | _ => exact Or.inr h
      | true =>
          obtain ⟨answer, hreply⟩ := h
          have hsup : Supports (query host jobsMax loadavg
              (asking request)) :=
            ⟨answer, hreply, (query_ok hreply rfl).2.2.1.trans hk⟩
          split
          · exact hsup
          · exact Or.inr ⟨hsup, .inr ⟨rfl, .inl rfl⟩⟩
          · exact Or.inr hsup.welcomes
  | makeInput data =>
      simp only [distributeStep]
      split
      · exact Or.inr (Supports.welcomes h)
      · exact h
  | makeOutput data input =>
      simp only [distributeStep]
      split
      · refine Foretold.destroyAll h ?_ ..
        exact Or.inr (Supports.welcomes h)
      · exact h
  | parse data input output =>
      simp only [distributeStep]
      split
      · refine Foretold.destroyAll h ?_ ..
        exact Or.inr ⟨h, .inr ⟨rfl, .inr rfl⟩⟩
      · exact h
  | launch data input output args =>
      simp only [distributeStep]
      split
      · refine Foretold.destroyAll h ?_ ..
        exact Or.inr (Supports.welcomes h)
      · exact h
  | answer input output process =>
      simp only [distributeStep]
      split
      · refine Foretold.destroyAll h ?_ ..
        exact Or.inr (Supports.welcomes h)
      · refine Foretold.destroyAll h ?_ ..
        exact Or.inr ⟨h, .inl rfl⟩
  | leave exit => cases exit <;> exact h
  | returned status answer => exact h
  | terminate armed => exact h

-- ============================================================== the theorem

/-- Two moments of a host with the same allowlist and the same build. -/
structure Alike (asked host : Host) : Prop where
  distcc : asked.distcc = host.distcc
  libexec : asked.libexec = host.libexec
  zstd : asked.zstd.isSome = host.zstd.isSome

/-- Nothing else of a host makes a difference to a query. -/
theorem query_alike (h : Alike asked host) (q : ServerQuery) :
    query asked jobsMax loadavg q = query host jobsMax loadavg q := by
  have hallowed : checkCompilerAllowed asked q.compiler =
      checkCompilerAllowed host q.compiler := by
    unfold checkCompilerAllowed
    rw [h.distcc, h.libexec]
  unfold query
  rw [hallowed, h.zstd]

/-- A query foretells what becomes of a job with its compiler and its
compression type, in any run, if the allowlist and the build are the same
for both: past its reservation, the job returns only if the query is
refused, or the file name is bad, or the query is answered and the type
supported, and what it returns with `OK` is the result of the compiler; and
the server dies only if the query aborts it or is answered. -/
theorem query_foretells (h : Reaches (step cfg) Q (State.start clock) s)
    (cell : s.calls[i]? = some (.distribute host request phase))
    (halike : Alike asked host) (jobsMax : UInt64)
    (loadavg : Option UInt32) :
    (∀ status answer, phase = .returned status answer →
      phase = refused request ∨
        Returned (query asked jobsMax loadavg (asking request)) request
            status ∧
          (status.code = .OK →
            ∃ a, answer = some a ∧ Produced host request a)) ∧
    ∀ armed, phase = .terminate armed →
      Aborts (query asked jobsMax loadavg (asking request)) ∨
        Welcomes (query asked jobsMax loadavg (asking request)) := by
  rw [query_alike halike]
  have hbody : ∀ k, Foretold (query host jobsMax loadavg (asking request))
      request ((distributeStep host request)^[k] .sanitize) := by
    intro k
    induction k with
    | zero => trivial
    | succ k ih =>
        rw [Function.iterate_succ_apply']
        exact ih.step
  rcases InBody.of_reaches h i _ cell with rfl | rfl | ⟨k, hk⟩
  · exact ⟨fun _ _ => Phase.noConfusion, fun _ => Phase.noConfusion⟩
  · exact ⟨fun _ _ _ => .inl rfl, fun _ => Phase.noConfusion⟩
  · have hfate := hbody k
    rw [← hk] at hfate
    refine ⟨fun status answer heq => ?_, fun armed heq => ?_⟩
    · subst heq
      exact .inr ⟨hfate, produced_of_ok h cell⟩
    · subst heq
      exact hfate

/-- A job for a compiler the host does not have. -/
def unlistedRequest : CompileRequest :=
  { plainRequest "a".toList with compiler := "clang".toList }

/-- The run that refuses it. -/
def unlistedRun : List Event :=
  .reserve :: reserveRun 0 "a".toList ++
    [.distribute plainHost unlistedRequest, .advance 1, .advance 1,
      .advance 1, .advance 1]

/-- The job has returned, so its query is refused, also from where the
temporary directory is full. -/
theorem query_foretells_unlisted :
    ∃ s status, runList (step ⟨1, 60⟩) (State.start 0) unlistedRun = some s ∧
      s.calls[1]? = some (.distribute plainHost unlistedRequest
        (.returned status none)) ∧
      Refuses (query { plainHost with mkdtempInput := fun _ => .error 28 } 1
        none (asking unlistedRequest)) := by
  obtain ⟨s, hrun, cell⟩ : ∃ s,
      runList (step ⟨1, 60⟩) (State.start 0) unlistedRun = some s ∧
      s.calls[1]? = some (.distribute plainHost unlistedRequest
        (.returned ⟨.INVALID_ARGUMENT,
          "error: compiler clang not in allow list".toList, []⟩ none)) :=
    ⟨_, rfl, rfl⟩
  have h := Reaches.of_runList (Q := fun _ _ => True) (q := fun _ _ => true)
    (fun _ _ _ => trivial) unlistedRun hrun (by decide)
  refine ⟨s, _, hrun, cell, ?_⟩
  have halike : Alike
    { plainHost with mkdtempInput := fun _ => .error 28 } plainHost :=
      ⟨rfl, rfl, rfl⟩
  rcases (query_foretells h cell halike 1 none).1 _ _ rfl with
    heq | ⟨⟨-, hr | hname⟩ | ⟨⟨answer, hreply, -⟩, -⟩, -⟩
  · cases heq
  · exact hr
  · cases hname
  · cases hreply

end Distplusplus.Server
