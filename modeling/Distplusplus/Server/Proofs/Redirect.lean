/-
Where a compiler started for a request writes, and what it reads.

`Distribute` puts its own `-o` behind the filtered arguments and counts on
it. The filter has no entry for `-o` or for `@file`, nor for other ways to
name an output or a file of arguments: they are kept wherever the filter
reads them as an argument of their own. And an option that takes an operand,
left at the very end, takes the server's `-o` for it.

How the compiler reads its command line is not for the program to say, so
it is a parameter (`Reading`): which options take the next argument, which
ones specify an output, and which arguments stand for a file of arguments.
-/
import Distplusplus.Server.Distribute
import Distplusplus.Server.Proofs.Grammar

namespace Distplusplus.Server

open Lib Common Piece

-- ======================================================= the specification

/-- How a compiler reads its command line: the options whose operand is the
next argument, those that specify an output, and the arguments that stand
for a file of arguments, which they do even as an operand. `-o` is of the
first two kinds and `@file` of the third; a path from the root is of none. -/
structure Reading where
  takes : Arg → Bool
  specifies : Arg → Bool
  reads : Arg → Bool
  output : takes Opt.o = true
  attached : ∀ file, specifies (Opt.o ++ file) = true
  response : ∀ a, a.head? = some '@' → reads a = true
  noResponse : reads Opt.o = false
  path : ∀ a, a.head? = some '/' →
    takes a = false ∧ specifies a = false ∧ reads a = false

/-- No argument at option position specifies an output, and none at all
stands for a file of arguments. -/
def Clear (r : Reading) (args : List Arg) : Prop :=
  (∀ a ∈ (cut r.takes args).map head, r.specifies a = false) ∧
    ∀ a ∈ args, r.reads a = false

/-- The one output that a command specifies is the server's own file, and
no file of arguments is read. -/
def OwnOutput (r : Reading) (command : List Arg) (output : Tempfile) :
    Prop :=
  (cut r.takes command).filter (fun u => r.specifies u.head) =
      [.pair Opt.o (cstr output.path)] ∧
    ∀ a ∈ command, r.reads a = false

/-- The arguments kept of some units. -/
def keptHeads (us : List (Piece Arg)) : List Arg :=
  (us.filter fun u => keeps u.head).map head

/-- Some argument that the filter reads on its own, and keeps, stands for a
file of arguments; or it specifies an output, and is not the operand of one
that was kept in front of it. -/
def Diverts (r : Reading) (args : List Arg) : Prop :=
  ∃ before a after, units args = before ++ .single a :: after ∧
    keeps a = true ∧ (r.reads a = true ∨
      r.specifies a = true ∧ pending r.takes (keptHeads before) = false)

/-- The last argument kept is an option that still takes an operand. -/
def Awaits (r : Reading) (args : List Arg) : Prop :=
  pending r.takes (keptHeads (units args)) = true

variable {args out : List Arg} {r : Reading} {input output : Tempfile}

-- =============================================================== the filter

/-- An argument that the filter keeps and does not refuse. -/
def Passes (a : Arg) : Prop := keeps a = true ∧ noDistribute a = false

theorem passes_c : Passes Opt.c :=
  ⟨keeps_c, (named_options Opt.c (by simp)).1⟩

/-- An argument without a dash passes. -/
theorem passes_of_head {a : Arg} (h : a.head? ≠ some '-') : Passes a := by
  refine ⟨?_, not_noDistribute_of_head h⟩
  simp [keeps, not_mem_singleArgsCPP_of_head h,
    not_mem_multiArgsCPP_of_head h, not_startsWithCPP_of_head h]

/-- An output option, joined to its file or not, is in none of the filter's
tables. -/
theorem passes_output (file : Arg) : Passes (Opt.o ++ file) := by
  obtain ⟨hno, hmulti, hsingle, hpre⟩ := output_unlisted file
  refine ⟨?_, hno⟩
  simp [keeps, hmulti, hsingle, hpre]

/-- A list of arguments that pass is returned as it is. -/
theorem parse_passes (hc : Opt.c ∈ args) (h : ∀ a ∈ args, Passes a) :
    parse args = .ok args := by
  have hloop : ∀ l c out, (∀ a ∈ l, Passes a) →
      parseLoop l c out = .ok (c || decide (Opt.c ∈ l), out ++ l) := by
    intro l
    induction l with
    | nil => simp [parseLoop]
    | cons a l ih =>
        intro c out hl
        rw [List.forall_mem_cons] at hl
        have hm : a ∉ multiArgsCPP := by
          intro hm
          rw [Passes, keeps_multi hm] at hl
          cases hl.1.1
        rw [parseLoop_single hl.1.2 hm, ih _ _ hl.2, hl.1.1]
        simp [Bool.or_assoc, eq_comm]
  unfold parse
  rw [hloop args false [] h, decide_eq_true hc]
  rfl

/-- What an accepted argument list returns, unit by unit. -/
theorem parse_keptHeads (h : parse args = .ok out) :
    (∀ u ∈ units args, ¬Barred u) ∧ out = keptHeads (units args) := by
  obtain ⟨hr, rfl⟩ := parse_eq_kept_iff.mp h
  have hbar : ∀ u ∈ units args, ¬Barred u :=
    fun u hu hb => hr (.inl ⟨u, hu, hb⟩)
  refine ⟨hbar, ?_⟩
  have htokens : ∀ us : List (Piece Arg), (∀ u ∈ us, u.tokens = [u.head]) →
      us.flatMap tokens = us.map head := by
    intro us hus
    induction us with
    | nil => rfl
    | cons u us ih =>
        rw [List.forall_mem_cons] at hus
        rw [List.flatMap_cons, hus.1, ih hus.2, List.map_cons,
          List.singleton_append]
  apply htokens
  intro u hu
  obtain ⟨hu, hk⟩ := List.mem_filter.mp hu
  obtain ⟨a, rfl, -⟩ := kept_single hu (hbar u hu) hk
  rfl

/-- An argument that is kept stands behind what is kept of the units in
front of its own. -/
theorem keptHeads_split {us : List (Piece Arg)} {front back : List Arg}
    {a : Arg} (h : keptHeads us = front ++ a :: back) :
    ∃ before u after, us = before ++ u :: after ∧ keeps u.head = true ∧
      u.head = a ∧ keptHeads before = front := by
  obtain ⟨l₁, l₂, hl, hfront, hback⟩ := List.map_eq_append_iff.mp h
  obtain ⟨u, l₃, rfl, hu, -⟩ := List.map_eq_cons_iff.mp hback
  obtain ⟨m₁, m₂, rfl, hm₁, hm₂⟩ := List.filter_eq_append_iff.mp hl
  obtain ⟨n₁, n₂, rfl, hdropped, hk, -⟩ := List.filter_eq_cons_iff.mp hm₂
  refine ⟨m₁ ++ n₁, u, n₂, by rw [List.append_assoc], hk, hu, ?_⟩
  have hn₁ : n₁.filter (fun u => keeps u.head) = [] :=
    List.filter_eq_nil_iff.mpr hdropped
  rw [keptHeads, List.filter_append, hm₁, hn₁, List.append_nil, hfront]

/-- An argument of the filter's result is one that it reads on its own. -/
theorem single_of_kept (hbar : ∀ u ∈ units args, ¬Barred u) {a : Arg}
    {front back : List Arg}
    (h : keptHeads (units args) = front ++ a :: back) :
    ∃ before after, units args = before ++ .single a :: after ∧
      keeps a = true ∧ keptHeads before = front := by
  obtain ⟨before, u, after, hunits, hk, rfl, rfl⟩ := keptHeads_split h
  have hu : u ∈ units args := by
    rw [hunits]
    exact List.mem_append_right _ (List.mem_cons_self ..)
  obtain ⟨a, rfl, -⟩ := kept_single hu (hbar u hu) hk
  exact ⟨before, after, hunits, hk, rfl⟩

/-- The arguments the filter returns are clear exactly when the request's
do not divert. -/
theorem clear_iff (h : parse args = .ok out) :
    Clear r out ↔ ¬Diverts r args := by
  obtain ⟨hbar, rfl⟩ := parse_keptHeads h
  constructor
  · rintro ⟨hheads, hall⟩ ⟨before, a, after, hunits, hk, hcase⟩
    have hkept : keptHeads (units args) =
        keptHeads before ++ a :: keptHeads after := by
      rw [hunits]
      simp [keptHeads, hk]
    rcases hcase with hreads | ⟨hspecifies, hp⟩
    · have hclear : r.reads a = false := hall a (by
        rw [hkept]
        exact List.mem_append_right _ (List.mem_cons_self ..))
      rw [hclear] at hreads
      cases hreads
    · have hclear : r.specifies a = false :=
        hheads a (mem_heads_iff.mpr ⟨_, _, hkept, hp⟩)
      rw [hclear] at hspecifies
      cases hspecifies
  · intro hnot
    constructor
    · intro a hmem
      rw [Bool.eq_false_iff]
      intro ha
      obtain ⟨front, back, heq, hp⟩ := mem_heads_iff.mp hmem
      obtain ⟨before, after, hunits, hk, rfl⟩ := single_of_kept hbar heq
      exact hnot ⟨before, a, after, hunits, hk, .inr ⟨ha, hp⟩⟩
    · intro a hmem
      rw [Bool.eq_false_iff]
      intro ha
      obtain ⟨front, back, heq⟩ := List.append_of_mem hmem
      obtain ⟨before, after, hunits, hk, -⟩ := single_of_kept hbar heq
      exact hnot ⟨before, a, after, hunits, hk, .inl ha⟩

-- ============================================================== the command

/-- A path from the root is passed on as one. -/
theorem absolute_facts {path : Str} (h : path.head? = some '/') :
    (r.takes (cstr path) = false ∧ r.specifies (cstr path) = false ∧
      r.reads (cstr path) = false) ∧ cstr path ≠ Opt.o := by
  have hhead : (cstr path).head? = some '/' := by
    cases path with
    | nil => cases h
    | cons c cs =>
        cases h
        rfl
  refine ⟨r.path _ hhead, ?_⟩
  rintro heq
  rw [heq] at hhead
  cases hhead

/-- Behind arguments that are clear, the server's own output is the one
that counts exactly when they do not end in an option that takes it. -/
theorem ownOutput_iff (hclear : Clear r out)
    (hin : input.path.head? = some '/')
    (hout : output.path.head? = some '/') :
    OwnOutput r (compilerArgs out input output) output ↔
      pending r.takes out = false := by
  obtain ⟨⟨hotakes, -, horeads⟩, hone⟩ := absolute_facts (r := r) hout
  obtain ⟨⟨hitakes, hispecifies, hireads⟩, -⟩ := absolute_facts (r := r) hin
  have hcommand : compilerArgs out input output =
      out ++ Opt.o :: [cstr output.path, cstr input.path] := by
    simp [compilerArgs]
  have ho : r.specifies Opt.o = true := r.attached []
  have hreads : ∀ a ∈ compilerArgs out input output, r.reads a = false := by
    intro a ha
    simp only [hcommand, List.mem_append, List.mem_cons, List.not_mem_nil,
      or_false] at ha
    rcases ha with ha | rfl | rfl | rfl
    · exact hclear.2 a ha
    · exact r.noResponse
    · exact horeads
    · exact hireads
  rw [OwnOutput, and_iff_left hreads, hcommand]
  cases hp : pending r.takes out with
  | false =>
      have hwhole : ∀ o, Piece.dangling o ∉ cut r.takes out := by
        intro o hd
        rw [pending_iff.mpr ⟨o, hd⟩] at hp
        cases hp
      have hnone : (cut r.takes out).filter (fun u => r.specifies u.head)
          = [] := by
        rw [List.filter_eq_nil_iff]
        intro u hu
        simp [hclear.1 u.head (List.mem_map_of_mem hu)]
      rw [cut_append_of_complete hwhole, cut_pair r.output,
        cut_single hitakes, List.filter_append, hnone]
      simp [cut, ho, hispecifies]
  | true =>
      refine iff_of_false (fun h => ?_) (by simp)
      obtain ⟨front, o, rfl, -, -, hcut⟩ := cut_append_of_pending hp Opt.o
        [cstr output.path, cstr input.path]
      have hmem : Piece.pair Opt.o (cstr output.path) ∈
          cut r.takes front ++ .pair o Opt.o ::
            cut r.takes [cstr output.path, cstr input.path] := by
        rw [← hcut]
        apply List.mem_of_mem_filter
        rw [h]
        exact List.mem_singleton_self _
      rw [cut_single hotakes, cut_single hitakes] at hmem
      simp only [cut, List.mem_append, List.mem_cons, List.not_mem_nil,
        or_false, Piece.pair.injEq, reduceCtorEq] at hmem
      rcases hmem with hfront | ⟨-, hpath⟩
      · -- the arguments would have an `-o` of their own
        have hhead := mem_heads_append (List.mem_map_of_mem hfront) [o]
        rw [head_pair] at hhead
        rw [hclear.1 _ hhead] at ho
        cases ho
      · exact hone hpath

-- ============================================================ the theorem

/-- However the compiler reads its command line: the arguments the filter
returns specify no output and read no file, and in the command the one
output is the server's own and no file of arguments is read, exactly when
no argument the filter reads on its own and keeps does either (unless it is
an output option that is the operand of one kept in front of it), and the
last one kept takes no operand. -/
theorem undiverted_iff (r : Reading) (h : parse args = .ok out)
    (hin : input.path.head? = some '/')
    (hout : output.path.head? = some '/') :
    (Clear r out ∧ OwnOutput r (compilerArgs out input output) output) ↔
      ¬Diverts r args ∧ ¬Awaits r args := by
  rw [← clear_iff h]
  refine and_congr_right fun hclear => ?_
  rw [ownOutput_iff hclear hin hout, Awaits, ← (parse_keptHeads h).2]
  simp only [Bool.not_eq_true]

/-- A compiler that takes an operand with `-x`, `-u` and `-Xassembler` too,
and another name for the output. -/
def separateOperands : Reading where
  takes := fun a => decide (a ∈ table ["-o", "-x", "-u", "-Xassembler"])
  specifies := fun a => Opt.o.isPrefixOf a ||
    "--output=".toList.isPrefixOf a
  reads := fun a => decide (a.head? = some '@')
  output := by decide
  attached := fun file => by
    rw [List.isPrefixOf_iff_prefix.mpr (List.prefix_append ..)]
    rfl
  response := fun a h => decide_eq_true h
  noResponse := by decide
  path := by
    intro a h
    obtain ⟨cs, rfl⟩ : ∃ cs, a = '/' :: cs := by
      cases a with
      | nil => cases h
      | cons c cs =>
          cases h
          exact ⟨cs, rfl⟩
    refine ⟨decide_eq_false ?_, rfl, by simp⟩
    have hall : ∀ o ∈ table ["-o", "-x", "-u", "-Xassembler"],
        o.head? = some '-' := by decide
    intro hmem
    cases hall _ hmem

/-- The shortest request. -/
theorem undiverted_plain :
    Clear separateOperands [Opt.c] ∧
      OwnOutput separateOperands (compilerArgs [Opt.c]
          ⟨"/tmp/1".toList, "a.c".toList, true⟩
          ⟨"/tmp/2".toList, "a.c.o".toList, true⟩)
        ⟨"/tmp/2".toList, "a.c.o".toList, true⟩ := by
  have hparse : parse [Opt.c] = .ok [Opt.c] :=
    parse_passes (by simp) (by simp [passes_c])
  have hwaits : ¬Awaits separateOperands [Opt.c] := by
    rw [Awaits, ← (parse_keptHeads hparse).2]
    decide
  refine (undiverted_iff separateOperands hparse rfl rfl).mpr ⟨?_, hwaits⟩
  rw [← clear_iff hparse]
  unfold Clear
  decide

/-- An output option of either name, a response file, also as an operand,
and an option in wait of its operand pass the filter. -/
theorem redirection_accepted :
    (parse (table ["-c", "-o", "a.so"]) = .ok (table ["-c", "-o", "a.so"]) ∧
      ¬Clear separateOperands (table ["-c", "-o", "a.so"])) ∧
    (parse (table ["-c", "--output=a.so"]) =
        .ok (table ["-c", "--output=a.so"]) ∧
      ¬Clear separateOperands (table ["-c", "--output=a.so"])) ∧
    (parse (table ["-c", "-Xassembler", "@flags"]) =
        .ok (table ["-c", "-Xassembler", "@flags"]) ∧
      ¬Clear separateOperands (table ["-c", "-Xassembler", "@flags"])) ∧
    parse (table ["-c", "-u"]) = .ok (table ["-c", "-u"]) ∧
      ¬OwnOutput separateOperands (compilerArgs (table ["-c", "-u"])
          ⟨"/tmp/1".toList, "a.c".toList, true⟩
          ⟨"/tmp/2".toList, "a.c.o".toList, true⟩)
        ⟨"/tmp/2".toList, "a.c.o".toList, true⟩ := by
  have hc : Passes "-c".toList := passes_c
  have ho : Passes "-o".toList := passes_output []
  have hfile : Passes "a.so".toList := passes_of_head (by decide)
  have hlong : Passes "--output=a.so".toList := by
    unfold Passes
    decide +kernel
  have has : Passes "-Xassembler".toList := by
    unfold Passes
    decide +kernel
  have hat : Passes "@flags".toList := passes_of_head (by decide)
  have hu : Passes "-u".toList := by
    unfold Passes
    decide +kernel
  have hout := List.forall_mem_cons.mpr ⟨hc, List.forall_mem_cons.mpr
    ⟨ho, List.forall_mem_singleton.mpr hfile⟩⟩
  have hother := List.forall_mem_cons.mpr
    ⟨hc, List.forall_mem_singleton.mpr hlong⟩
  have hresponse := List.forall_mem_cons.mpr ⟨hc, List.forall_mem_cons.mpr
    ⟨has, List.forall_mem_singleton.mpr hat⟩⟩
  have hwaits := List.forall_mem_cons.mpr
    ⟨hc, List.forall_mem_singleton.mpr hu⟩
  refine ⟨⟨parse_passes (by decide) hout, ?_⟩,
    ⟨parse_passes (by decide) hother, ?_⟩,
    ⟨parse_passes (by decide) hresponse, ?_⟩,
    parse_passes (by decide) hwaits, ?_⟩
  · unfold Clear
    decide
  · unfold Clear
    decide
  · unfold Clear
    decide
  · unfold OwnOutput
    decide

end Distplusplus.Server
