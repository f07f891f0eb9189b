/-
The output file, from the compiler on the server to the client's disk.

The server compresses what the compiler left in its output file, nothing
included; the client decides on the compressed bytes whether there is
anything to write. A zstd frame is never empty, so for zstd the client
writes even when there was no output: `output_kept_iff` says that this is
the only difference.

The library is outside the program, so what it has to do is assumed
(`Codec`): what one side compressed the other decompresses, and no frame is
empty.
-/
import Distplusplus.Client.Answer
import Distplusplus.Server.Distribute

namespace Distplusplus

open Lib Common

variable {server client : Option Zstd}

-- ============================================================ the library

/-- The zstd libraries of a server and a client fit together. -/
structure Codec (server client : Option Zstd) : Prop where
  inverts : ∀ z, server = some z → ∃ z', client = some z' ∧
    ∀ level input data, z.compress level input = .ok data →
      z'.decompress data = .ok input
  framed : ∀ z, server = some z → ∀ level input data,
    z.compress level input = .ok data → data ≠ []

/-- What the server compressed the client decompresses. -/
theorem Codec.decompressor (h : Codec server client)
    {type : CompressionType} {level : Int64} {input data : Str}
    (hc : compressor server type level input = .ok data) :
    Common.decompressor client type data = .ok input := by
  have hne : CompressionType.zstd ≠ CompressionType.NONE := by decide
  unfold compressor at hc
  unfold Common.decompressor
  by_cases hN : type = CompressionType.NONE
  · rw [if_pos hN] at hc ⊢
    cases hc
    rfl
  · rw [if_neg hN] at hc ⊢
    by_cases hz : type = CompressionType.zstd
    · rw [if_pos hz] at hc ⊢
      cases hs : server with
      | none =>
          rw [hs] at hc
          cases hc
      | some z =>
          rw [hs] at hc
          obtain ⟨z', hclient, hinv⟩ := h.inverts z hs
          rw [hclient]
          exact hinv _ _ _ hc
    · rw [if_neg hz] at hc
      cases hc

/-- Without zstd there is nothing to fit. -/
theorem noCodec : Codec none client :=
  ⟨nofun, nofun⟩

/-- The compressed data is empty only for empty input under `NONE`. -/
theorem Codec.data_nil_iff (h : Codec server client)
    {type : CompressionType} {level : Int64} {input data : Str}
    (hc : compressor server type level input = .ok data) :
    data = [] ↔ type = CompressionType.NONE ∧ input = [] := by
  unfold compressor at hc
  by_cases hN : type = CompressionType.NONE
  · rw [if_pos hN] at hc
    cases hc
    exact ⟨fun hd => ⟨hN, hd⟩, fun hd => hd.2⟩
  · rw [if_neg hN] at hc
    by_cases hz : type = CompressionType.zstd
    · rw [if_pos hz] at hc
      cases hs : server with
      | none =>
          rw [hs] at hc
          cases hc
      | some z =>
          rw [hs] at hc
          exact ⟨fun hd => absurd hd (h.framed z hs _ _ _ hc),
            fun hd => absurd hd.1 hN⟩
    · rw [if_neg hz] at hc
      cases hc

-- ============================================================= the answer

variable {host : Server.Host} {request : CompileRequest}
variable {input output : Tempfile} {process : Server.Process}
variable {answer : CompileAnswer}

/-- Destroying files does not change how the body is left. -/
theorem Server.exit_of_destroyAll {nameMax : Nat}
    {files : List (Tempfile × List Str)} {exit exit' : Server.Exit}
    (h : Server.destroyAll nameMax files exit = .leave exit') :
    exit' = exit := by
  rcases Server.destroyAll_cases nameMax files exit with hd | hd
  · rw [hd] at h
    injection h with h
    exact h.symm
  · rw [hd] at h
    cases h

/-- The answer to a compile carries the compressed output file. -/
theorem Server.answer_eq
    (h : Server.distributeStep host request
      (.answer input output process) = .leave (.ret .ok (some answer))) :
    ∃ data, compressor host.zstd host.compressorFactory.compressionType
        host.compressorFactory.compressionLevel process.output = .ok data ∧
      answer = ⟨process.returnCode, process.stdout, process.stderr,
        some ⟨output.path, host.compressorFactory.compressionType, data⟩⟩ := by
  simp only [Server.distributeStep] at h
  cases hc : compressor host.zstd host.compressorFactory.compressionType
      host.compressorFactory.compressionLevel process.output with
  | error e =>
      rw [hc] at h
      cases Server.exit_of_destroyAll h
  | ok data =>
      rw [hc] at h
      have hexit := Server.exit_of_destroyAll h
      injection hexit with _ hanswer
      exact ⟨data, rfl, Option.some.inj hanswer⟩

/-- What the client leaves in its output file. Nothing is sent of no output
at all, if it is not compressed, and then the file is not opened. -/
def fileLeft (outfile : Client.Outfile) (type : CompressionType)
    (output : Str) : Option Str :=
  if type = CompressionType.NONE ∧ output = [] then none
  else outfile.write output

/-- What the client receives of compressed output. -/
theorem Codec.receive (h : Codec server client) {type : CompressionType}
    {level : Int64} {output data name stdout stderr : Str}
    {returnCode : Int32}
    (hc : compressor server type level output = .ok data)
    (outfile : Client.Outfile) :
    Client.receive client outfile ⟨returnCode, stdout, stderr,
        some ⟨name, type, data⟩⟩ =
      .ok ⟨fileLeft outfile type output, stderr, stdout, returnCode⟩ := by
  have hnil := h.data_nil_iff hc
  unfold Client.receive Client.writeOutput Client.outputFile fileLeft
  dsimp only [Option.getD]
  by_cases hdata : data = []
  · rw [if_neg (not_not_intro hdata), if_pos (hnil.mp hdata)]
  · rw [if_pos hdata, h.decompressor hc, if_neg fun hn => hdata (hnil.mpr hn)]

/-- What should become of the client's output file: written with exactly
the output, or left alone when there is none. -/
def Kept (client : Option Zstd) (outfile : Client.Outfile)
    (answer : CompileAnswer) (output : Str) : Prop :=
  ∃ result, Client.receive client outfile answer = .ok result ∧
    result.written = if output = [] then none else some output

/-- When it does: the disk takes an output, and no output is sent
uncompressed (or the file cannot be opened). -/
def Keeps (outfile : Client.Outfile) (type : CompressionType)
    (output : Str) : Prop :=
  if output = [] then type = CompressionType.NONE ∨ outfile.opens = false
  else outfile.Takes output

/-- The client's output file is the server's exactly on these. -/
theorem output_kept_iff (hcodec : Codec host.zstd client)
    (hanswer : Server.distributeStep host request
      (.answer input output process) = .leave (.ret .ok (some answer)))
    (outfile : Client.Outfile) :
    Kept client outfile answer process.output ↔
      Keeps outfile host.compressorFactory.compressionType
        process.output := by
  obtain ⟨data, hc, rfl⟩ := Server.answer_eq hanswer
  simp only [Kept, hcodec.receive hc, Except.ok.injEq, exists_eq_left',
    fileLeft, Keeps]
  by_cases hout : process.output = []
  · rw [hout]
    by_cases htype : host.compressorFactory.compressionType =
        CompressionType.NONE
    · simp [htype]
    · simp [htype, Client.Outfile.write_eq_none_iff]
  · simp [hout, Client.Outfile.write_eq_some_iff]

-- ========================================================== two compiles

/-- A stand-in for zstd: one byte in front. -/
def framing : Zstd where
  compress := fun _ input => .ok ('z' :: input)
  decompress := fun
    | 'z' :: input => .ok input
    | _ => .error (.iosFailure "zstd error".toList)

theorem framing_codec : Codec (some framing) (some framing) := by
  refine ⟨fun z h => ⟨framing, rfl, ?_⟩, ?_⟩
  · cases h
    intro level input data hc
    cases hc
    rfl
  · intro z h level input data hc heq
    subst heq
    cases h
    cases hc

/-- A server that answers with zstd data. -/
def zstdHost : Server.Host :=
  { Server.plainHost with
    zstd := some framing
    compressorFactory := ⟨CompressionType.zstd, 1⟩ }

/-- The temporary file a server makes for a name. -/
def tempfile (name : Str) : Tempfile := ⟨"/tmp/".toList ++ name, name, true⟩

/-- A successful compile reaches the client's disk. -/
theorem output_kept_code :
    ∃ answer, Server.distributeStep zstdHost (Server.plainRequest [])
        (.answer (tempfile "a.c".toList) (tempfile "a.c.o".toList)
          ⟨0, [], [], "code".toList, ["a.c".toList], ["a.c.o".toList]⟩) =
        .leave (.ret .ok (some answer)) ∧
      Kept (some framing) ⟨true, none⟩ answer "code".toList := by
  have hanswer : Server.distributeStep zstdHost (Server.plainRequest [])
      (.answer (tempfile "a.c".toList) (tempfile "a.c.o".toList)
        ⟨0, [], [], "code".toList, ["a.c".toList], ["a.c.o".toList]⟩) =
      .leave (.ret .ok (some ⟨0, [], [], some
        ⟨(tempfile "a.c.o".toList).path, CompressionType.zstd,
          'z' :: "code".toList⟩⟩)) := rfl
  exact ⟨_, hanswer, (output_kept_iff framing_codec hanswer
    ⟨true, none⟩).mpr ⟨rfl, nofun⟩⟩

/-- A failed one under zstd leaves an empty object file behind. -/
theorem output_invented :
    ∃ answer, Server.distributeStep zstdHost (Server.plainRequest [])
        (.answer (tempfile "a.c".toList) (tempfile "a.c.o".toList)
          ⟨1, [], "error".toList, [], ["a.c".toList], []⟩) =
        .leave (.ret .ok (some answer)) ∧
      Client.receive (some framing) ⟨true, none⟩ answer =
        .ok ⟨some [], "error".toList, [], 1⟩ ∧
      ¬Kept (some framing) ⟨true, none⟩ answer [] := by
  refine ⟨_, rfl, rfl, ?_⟩
  intro hex
  obtain ⟨result, h, hwritten⟩ := hex
  cases h
  cases hwritten

end Distplusplus
