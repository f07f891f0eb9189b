/-
Which requests the server survives.

`Distribute` catches three kinds of exception and aborts the process on
any other. This file runs the body backwards: `Returns n phase` says that
`n` steps lead from a phase to a returned status, and each phase's lemma
says when it does in terms of the next phase's. Put together they are
`Survives`, the condition on the request and its host; `distribute_returns`
says it is exact.

The validation accepts every file name without a slash, but the temporary
file needs one that is not empty, and its destructor one that the file
system takes and a directory with nothing else in it. It accepts every
compression type, but the decompressor throws at the ones it does not know.
-/
import Distplusplus.Server.Proofs.Lifetime

namespace Distplusplus.Server

open Lib Common

variable {host : Host} {request : CompileRequest} {n : Nat}

-- ================================================================= returns

/-- `n` steps of the body lead from a phase to a returned status. -/
def Returns (host : Host) (request : CompileRequest) (n : Nat)
    (phase : Phase) : Prop :=
  ∃ status answer, (distributeStep host request)^[n] phase
    = .returned status answer

theorem returns_succ {phase : Phase} :
    Returns host request (n + 1) phase ↔
      Returns host request n (distributeStep host request phase) := Iff.rfl

/-- A returned call stays returned. -/
theorem returns_returned (status : Status) (answer : Option CompileAnswer) :
    Returns host request n (.returned status answer) := by
  induction n with
  | zero => exact ⟨status, answer, rfl⟩
  | succ n ih => exact returns_succ.mpr ih

/-- A dead process stays dead. -/
theorem not_returns_terminate (armed : Bool) :
    ¬ Returns host request n (.terminate armed) := by
  induction n with
  | zero => rintro ⟨status, answer, h⟩; cases h
  | succ n ih => exact fun h => ih (returns_succ.mp h)

/-- The ways out that are a status. -/
def Exit.isStatus : Exit → Bool
  | .throw _ => false
  | _ => true

theorem returns_leave {exit : Exit} :
    Returns host request (n + 1) (.leave exit) ↔ exit.isStatus = true := by
  rw [returns_succ]
  cases exit with
  | ret status answer => exact ⟨fun _ => rfl, fun _ => returns_returned ..⟩
  | throwStatus status => exact ⟨fun _ => rfl, fun _ => returns_returned ..⟩
  | throw e =>
      exact ⟨fun h => absurd h (not_returns_terminate false),
        fun h => absurd h Bool.false_ne_true⟩

/-- Leaving the body returns when every destructor does and the way out is
a status. -/
theorem returns_destroyAll {nameMax : Nat}
    {files : List (Tempfile × List Str)} {exit : Exit} :
    Returns host request (n + 1) (destroyAll nameMax files exit) ↔
      (∀ f ∈ files, ∃ d, f.1.destroy nameMax (some f.2) = .ok d) ∧
        exit.isStatus = true := by
  induction files with
  | nil => simpa [destroyAll] using returns_leave
  | cons f files ih =>
      simp only [destroyAll, List.forall_mem_cons]
      cases hd : f.1.destroy nameMax (some f.2) with
      | ok d =>
          simp only [ih]
          constructor
          · intro hex
            obtain ⟨hall, hexit⟩ := hex
            exact ⟨⟨⟨d, rfl⟩, hall⟩, hexit⟩
          · intro hex
            obtain ⟨⟨-, hall⟩, hexit⟩ := hex
            exact ⟨hall, hexit⟩
      | error e =>
          constructor
          · exact fun h => absurd h (not_returns_terminate true)
          · intro hex
            obtain ⟨⟨⟨d, hok⟩, -⟩, -⟩ := hex
            cases hok

-- =============================================================== conditions

/-- What the environment provides: temporary directories, a compiler that
is found and starts, and a zstd library that reports malformed data as the
helper expects. -/
structure Provided (host : Host) : Prop where
  mkdtempInput : ∀ template, ∃ dir, host.mkdtempInput template = .ok dir
  mkdtempOutput : ∀ template, ∃ dir, host.mkdtempOutput template = .ok dir
  child : ∀ program args input, ∃ process,
    host.child program args input = .ok process
  malformed : ∀ z, host.zstd = some z → ∀ input e,
    z.decompress input = .error e → ∃ what, e = .iosFailure what

/-- The build knows the compression type. -/
def knownCompression (host : Host) (type : CompressionType) : Bool :=
  decide (type = CompressionType.NONE) ||
    (decide (type = CompressionType.zstd) && host.zstd.isSome)

/-- A name both temporary files can have. -/
def tempfileName (host : Host) (name : Str) : Bool :=
  decide (name ≠ []) && ordinaryName host.nameMax name &&
    ordinaryName host.nameMax (name ++ ".o".toList)

/-- The input file of a request, in the directory made for it. -/
def inputFile (host : Host) (request : CompileRequest) :
    Except Exception Tempfile :=
  createFileName host.mkdtempInput host.tempDir request.inputFile.name
    (delimited host.peer)

/-- The output file of a request, in the directory made for it. -/
def outputFile (host : Host) (request : CompileRequest) :
    Except Exception Tempfile :=
  createFileName host.mkdtempOutput host.tempDir
    (request.inputFile.name ++ ".o".toList) (delimited host.peer)

/-- The compiler leaves nothing but the two files behind, and the answer
can be compressed. -/
def Tidy (host : Host) (request : CompileRequest) (data : Str)
    (args : List Arg) : Prop :=
  ∀ input output process, inputFile host request = .ok input →
    outputFile host request = .ok output →
    host.child (host.searchPath request.compiler)
      (compilerArgs args input output) data = .ok process →
    leavesOthers request.inputFile.name process.inputDir = false ∧
    leavesOthers (request.inputFile.name ++ ".o".toList)
      process.outputDir = false ∧
    ∃ content, compressor host.zstd host.compressorFactory.compressionType
      host.compressorFactory.compressionLevel process.output = .ok content

/-- Exactly the requests that get a status for an answer. -/
def Survives (host : Host) (request : CompileRequest) : Prop :=
  sanitizeRequest request = false ∨
  checkCompilerAllowed host request.compiler = .ok false ∨
  (checkCompilerAllowed host request.compiler = .ok true ∧
    knownCompression host request.inputFile.compressionType = true ∧
    ∀ data, decompressor host.zstd request.inputFile.compressionType
        request.inputFile.content = .ok data →
      tempfileName host request.inputFile.name = true ∧
      ∀ args, Server.parse request.argument = .ok args →
        Tidy host request data args)

-- ========================================================= temporary files

theorem slash_not_mem_delimited (peer : Str) : '/' ∉ delimited peer := by
  simp only [delimited, List.mem_map, not_exists, not_and]
  intro c _
  split
  · decide
  · assumption

theorem slash_not_mem_append_o {name : Str} (h : '/' ∉ name) :
    '/' ∉ name ++ ".o".toList := by
  rw [List.mem_append, not_or]
  exact ⟨h, by decide⟩

/-- What a new temporary file is. -/
theorem createFileName_ok {mkdtemp : Str → Except Nat Str}
    {tempDir name dirname : Str} {file : Tempfile}
    (h : createFileName mkdtemp tempDir name dirname = .ok file) :
    file.name = name ∧ file.cleanup = true := by
  simp only [createFileName] at h
  split at h
  · cases h
  · split at h
    · cases h
    · split at h
      · cases h
      · split at h
        · cases h
        · cases h
          exact ⟨rfl, rfl⟩

/-- With a directory to be had, only the empty name is refused. -/
theorem createFileName_iff {mkdtemp : Str → Except Nat Str}
    (hmk : ∀ template, ∃ dir, mkdtemp template = .ok dir)
    (tempDir : Str) {name dirname : Str} (hname : '/' ∉ name)
    (hdirname : '/' ∉ dirname) :
    (∃ file, createFileName mkdtemp tempDir name dirname = .ok file) ↔
      name ≠ [] := by
  have hbase := (samePath_filename name).mpr hname
  rw [filename_of_no_slash hname] at hbase
  simp only [createFileName, (samePath_filename dirname).mpr hdirname,
    filename_of_no_slash hname, hbase]
  constructor
  · rintro ⟨file, h⟩ rfl
    cases h
  · intro hne
    obtain ⟨dir, hdir⟩ := hmk (cstr (tempDir ++ '/' :: dirname ++
      "XXXXXX".toList))
    rw [if_neg hne, hdir]
    exact ⟨_, rfl⟩

/-- Nothing but the file itself is in the directory of an untouched one. -/
theorem leavesOthers_opened (nameMax : Nat) (name : Str) :
    leavesOthers name (opened nameMax name) = false := by
  simp only [opened]
  split
  case isTrue => rfl
  case isFalse h =>
    have hne : cstr name ≠ [] := fun heq => h (.inl heq)
    simp [leavesOthers, hne]

/-- Destroying an untouched file returns when its name is ordinary. -/
theorem destroy_untouched {nameMax : Nat} {file : Tempfile}
    (hc : file.cleanup = true) :
    (∃ d, (untouched nameMax file).1.destroy nameMax
        (some (untouched nameMax file).2) = .ok d) ↔
      ordinaryName nameMax file.name = true := by
  show (∃ d, file.destroy nameMax (some (opened nameMax file.name))
    = .ok d) ↔ _
  rw [Tempfile.destroy_ok hc]
  exact and_iff_left (leavesOthers_opened nameMax file.name)

-- ============================================================== the phases

section

variable {data : Str} {input output : Tempfile} {args : List Arg}

theorem returns_answer {process : Process}
    (hi : input.cleanup = true) (ho : output.cleanup = true) :
    Returns host request (n + 2) (.answer input output process) ↔
      (ordinaryName host.nameMax output.name = true ∧
        leavesOthers output.name process.outputDir = false) ∧
      (ordinaryName host.nameMax input.name = true ∧
        leavesOthers input.name process.inputDir = false) ∧
      ∃ content, compressor host.zstd host.compressorFactory.compressionType
        host.compressorFactory.compressionLevel process.output
          = .ok content := by
  rw [returns_succ, ← Tempfile.destroy_ok ho, ← Tempfile.destroy_ok hi]
  simp only [distributeStep]
  cases compressor host.zstd host.compressorFactory.compressionType
      host.compressorFactory.compressionLevel process.output with
  | ok content =>
      rw [returns_destroyAll]
      simp [Exit.isStatus]
  | error e =>
      rw [returns_destroyAll]
      simp [Exit.isStatus]

theorem returns_launch (hp : Provided host) :
    Returns host request (n + 3) (.launch data input output args) ↔
      ∀ process, host.child (host.searchPath request.compiler)
          (compilerArgs args input output) data = .ok process →
        Returns host request (n + 2) (.answer input output process) := by
  obtain ⟨process, hprocess⟩ := hp.child (host.searchPath request.compiler)
    (compilerArgs args input output) data
  rw [returns_succ]
  simp only [distributeStep, hprocess, Except.ok.injEq, forall_eq']

/-- From the arguments on. Whether the parser accepts them or not, both
files are destroyed in the end, so both names must be ordinary. -/
theorem returns_parse (hp : Provided host) (hi : input.cleanup = true)
    (ho : output.cleanup = true) :
    Returns host request (n + 4) (.parse data input output) ↔
      (ordinaryName host.nameMax input.name = true ∧
        ordinaryName host.nameMax output.name = true) ∧
      ∀ args, Server.parse request.argument = .ok args → ∀ process,
        host.child (host.searchPath request.compiler)
          (compilerArgs args input output) data = .ok process →
        leavesOthers input.name process.inputDir = false ∧
        leavesOthers output.name process.outputDir = false ∧
        ∃ content, compressor host.zstd
          host.compressorFactory.compressionType
          host.compressorFactory.compressionLevel process.output
            = .ok content := by
  rw [returns_succ]
  simp only [distributeStep]
  cases Server.parse request.argument with
  | error signal =>
      rw [returns_destroyAll]
      simp only [List.forall_mem_cons, destroy_untouched hi,
        destroy_untouched ho, Exit.isStatus]
      simp [and_comm]
  | ok args =>
      obtain ⟨process, hprocess⟩ := hp.child
        (host.searchPath request.compiler) (compilerArgs args input output)
        data
      simp only [returns_launch hp, returns_answer hi ho, hprocess,
        Except.ok.injEq, forall_eq']
      constructor
      · intro hex
        obtain ⟨⟨hno, hlo⟩, ⟨hni, hli⟩, hcompress⟩ := hex
        exact ⟨⟨hni, hno⟩, hli, hlo, hcompress⟩
      · intro hex
        obtain ⟨⟨hni, hno⟩, hli, hlo, hcompress⟩ := hex
        exact ⟨⟨hno, hlo⟩, ⟨hni, hli⟩, hcompress⟩

end

/-- From the decompressed data on, with a name without a slash. -/
theorem returns_makeInput (hp : Provided host)
    (hname : '/' ∉ request.inputFile.name) {data : Str} :
    Returns host request (n + 6) (.makeInput data) ↔
      tempfileName host request.inputFile.name = true ∧
        ∀ args, Server.parse request.argument = .ok args →
          Tidy host request data args := by
  have hpeer := slash_not_mem_delimited host.peer
  have hin := createFileName_iff hp.mkdtempInput host.tempDir hname hpeer
  have hout := (createFileName_iff hp.mkdtempOutput host.tempDir
    (slash_not_mem_append_o hname) hpeer).mpr (by simp)
  rw [returns_succ]
  simp only [distributeStep]
  cases hci : createFileName host.mkdtempInput host.tempDir
      request.inputFile.name (delimited host.peer) with
  | error e =>
      -- only the empty name has no file
      have hempty : request.inputFile.name = [] := by
        by_contra hne
        obtain ⟨file, hok⟩ := hin.mpr hne
        rw [hci] at hok
        cases hok
      rw [returns_leave]
      simp [Exit.isStatus, tempfileName, hempty]
  | ok input =>
      have hne : request.inputFile.name ≠ [] := hin.mp ⟨input, hci⟩
      obtain ⟨hiname, hi⟩ := createFileName_ok hci
      obtain ⟨output, hco⟩ := hout
      obtain ⟨honame, ho⟩ := createFileName_ok hco
      have hrun : Returns host request (n + 5) (.makeOutput data input) ↔
          Returns host request (n + 4) (.parse data input output) := by
        rw [returns_succ]
        simp only [distributeStep, hco]
      rw [hrun, returns_parse hp hi ho, hiname, honame, tempfileName,
        decide_eq_true hne, Bool.true_and, Bool.and_eq_true]
      refine and_congr_right fun _ => forall_congr' fun args =>
        imp_congr_right fun _ => ?_
      constructor
      · intro h input' output' process hci' hco' hchild
        cases hci.symm.trans hci'
        cases hco.symm.trans hco'
        exact h process hchild
      · intro h process hchild
        exact h input output process hci hco hchild

/-- What the decompressor does with a request. -/
theorem decompressor_cases (hp : Provided host) (type : CompressionType)
    (content : Str) :
    (knownCompression host type = true ∧
      ((∃ data, decompressor host.zstd type content = .ok data) ∨
        ∃ what, decompressor host.zstd type content
          = .error (.iosFailure what))) ∨
    (knownCompression host type = false ∧
      ∃ e, decompressor host.zstd type content = .error e ∧
        ∀ what, e ≠ .iosFailure what) := by
  simp only [knownCompression, decompressor]
  by_cases hnone : type = CompressionType.NONE
  · simp [hnone]
  · by_cases hzstd : type = CompressionType.zstd
    · cases hz : host.zstd with
      | none => simp [hzstd, CompressionType.zstd, CompressionType.NONE]
      | some z =>
          left
          refine ⟨by simp [hzstd], ?_⟩
          rw [if_neg hnone, if_pos hzstd]
          cases hd : z.decompress content with
          | ok data => exact .inl ⟨data, hd⟩
          | error e =>
              obtain ⟨what, rfl⟩ := hp.malformed z hz content e hd
              exact .inr ⟨what, hd⟩
    · simp [hnone, hzstd]

/-- From the allowlist's yes on. -/
theorem returns_decompress (hp : Provided host)
    (hname : '/' ∉ request.inputFile.name) :
    Returns host request (n + 7) .decompress ↔
      knownCompression host request.inputFile.compressionType = true ∧
      ∀ data, decompressor host.zstd request.inputFile.compressionType
          request.inputFile.content = .ok data →
        tempfileName host request.inputFile.name = true ∧
        ∀ args, Server.parse request.argument = .ok args →
          Tidy host request data args := by
  rw [returns_succ]
  simp only [distributeStep]
  rcases decompressor_cases hp request.inputFile.compressionType
      request.inputFile.content with ⟨hk, ⟨data, hd⟩ | ⟨what, hd⟩⟩ |
        ⟨hk, e, hd, hne⟩
  · rw [hd, hk]
    simp only [Except.ok.injEq, forall_eq', true_and]
    exact returns_makeInput hp hname
  · rw [hd, hk]
    simp [returns_leave, Exit.isStatus]
  · have hthrow : ∀ d, decompressor host.zstd
        request.inputFile.compressionType request.inputFile.content ≠
          .ok d := by
      intro d hok
      rw [hd] at hok
      cases hok
    rw [hd, hk]
    cases e with
    | iosFailure what => exact absurd rfl (hne what)
    | _ => simp [returns_leave, Exit.isStatus]

-- ============================================================== the results

/-- The body, from its start, is left by a status exactly when the request
survives. -/
theorem returns_sanitize (hp : Provided host) :
    Returns host request 9 .sanitize ↔ Survives host request := by
  rw [returns_succ]
  simp only [distributeStep, Survives]
  cases hs : sanitizeRequest request with
  | false => simp [returns_leave, Exit.isStatus]
  | true =>
      have hname := (sanitizeRequest_iff.mp hs).2
      simp only [Bool.not_true, Bool.false_eq_true, if_false]
      rw [returns_succ]
      simp only [distributeStep]
      cases hc : checkCompilerAllowed host request.compiler with
      | error e => simp [returns_leave, Exit.isStatus]
      | ok allowed =>
          cases allowed with
          | false => simp [returns_leave, Exit.isStatus]
          | true => simpa using returns_decompress (n := 0) hp hname

/-- Exactly when a request with a valid reservation gets a status: the
environment gives what it should, and the request `Survives` it. -/
theorem distribute_returns (hp : Provided host) :
    (∃ status answer, distribute host request = .returned status answer) ↔
      Survives host request := by
  show Returns host request 9 .sanitize ↔ _
  exact returns_sanitize hp

/-- A request that is compiled. -/
theorem distribute_returns_plain :
    ∃ status answer, distribute plainHost (plainRequest []) =
      .returned status answer := by
  refine (distribute_returns ⟨fun _ => ⟨_, rfl⟩, fun _ => ⟨_, rfl⟩,
    fun _ _ _ => ⟨_, rfl⟩, fun _ h => by cases h⟩).mpr (.inr (.inr ?_))
  refine ⟨by decide, by decide, fun data hd => ⟨by decide, ?_⟩⟩
  rintro args - input output process - - hchild
  cases hchild
  exact ⟨by decide, by decide, _, rfl⟩

/-- Three requests with a valid reservation that abort the server: a
compression type nobody knows, an empty file name, and a flag that makes
the compiler leave a second file. -/
theorem distribute_aborts :
    Provided plainHost ∧
    distribute plainHost { plainRequest [] with
      inputFile := ⟨"a.c".toList, 7, []⟩ } = .terminate false ∧
    distribute plainHost { plainRequest [] with
      inputFile := ⟨[], CompressionType.NONE, []⟩ } = .terminate false ∧
    distribute { plainHost with
        child := fun _ _ _ => .ok ⟨0, [], [], "code".toList,
          ["a.c".toList], ["a.c.dwo".toList, "a.c.o".toList]⟩ }
      { plainRequest [] with
        argument := ["-gsplit-dwarf".toList, "-c".toList] }
        = .terminate true :=
  ⟨⟨fun _ => ⟨_, rfl⟩, fun _ => ⟨_, rfl⟩, fun _ _ _ => ⟨_, rfl⟩,
    fun _ h => by cases h⟩, rfl, rfl, rfl⟩

-- ============================================================= the machine

variable {cfg : Config} {s t : State} {e : Event} {i : Nat} {c c' : Call}

/-- A `Distribute` cell of the machine is at its lookup, refused, or some
steps into the body. -/
def InBody : Call → Prop
  | .distribute host request phase =>
      phase = .lookup ∨ phase = refused request ∨
        ∃ k, phase = (distributeStep host request)^[k] .sanitize
  | _ => True

theorem InBody.callEffect (h : InBody c) (hc : CallEffect cfg s i e c c' t) :
    InBody c' := by
  have next : ∀ {host : Host} {request : CompileRequest} {phase : Phase},
      phase ≠ .lookup → InBody (.distribute host request phase) →
      InBody (.distribute host request
        (distributeStep host request phase)) := by
    intro host request phase hl hcase
    rcases hcase with rfl | rfl | ⟨k, rfl⟩
    · exact absurd rfl hl
    · exact .inr (.inl rfl)
    · exact .inr (.inr ⟨k + 1, (Function.iterate_succ_apply' ..).symm⟩)
  cases hc with
  | quiet hq =>
      cases hq with
      | body host request phase hin =>
          exact next (by rintro rfl; cases hin) h
      | _ => trivial
  | release hr =>
      cases hr with
      | unwind => trivial
      | leave host request exit => exact next Phase.noConfusion h
  | launch => exact next Phase.noConfusion h
  | refuse => exact .inr (.inl rfl)
  | take => exact .inr (.inr ⟨0, rfl⟩)
  | pass => trivial
  | grant => trivial
  | generate => trivial
  | insert => trivial

theorem InBody.of_reaches {Q : State → Event → Prop} {clock : Int}
    (h : Reaches (step cfg) Q (State.start clock) s) :
    ∀ (i : Nat) (c : Call), s.calls[i]? = some c → InBody c := by
  refine h.invariant
    (P := fun s => ∀ (i : Nat) (c : Call), s.calls[i]? = some c → InBody c)
    (fun _ _ hc => by cases hc) ?_
  intro s e t hs _ hse
  refine (step_effect hse).cells (P := fun _ _ c => InBody c)
    (fun _ _ _ _ hp => hp) ?_ (fun _ _ _ _ hp hc => hp.callEffect hc) hs
  intro _ _ c ha
  cases ha with
  | reserve => trivial
  | distribute => exact .inl rfl

end Distplusplus.Server
