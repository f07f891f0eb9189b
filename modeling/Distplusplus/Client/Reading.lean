/-
The client's parser as a reader of units.

`visit` is what the loop of `parseArgs` does with one unit, refusals and
error texts included; a token that names a response file opens the units of
that file. `parseArgs_eq` says that this is all the parser does: it is the
only place where the loop is opened up.

- `Parses`, `Constructs`: what the parser comes to on a stack that is deep
  enough. `parses_iff` takes both to the machine of the reader library.
- `Visits`: all that can come of a unit. Whatever the loop's branches say
  about accepting, refusing and failing is read off it.
- `parseArgs_reads`: a parser that returns has run over its expansion.
-/
import Distplusplus.Client.Units
import Distplusplus.Lib.Reader

namespace Distplusplus.Client

open Lib Common Piece

variable {fs : FileSystem} {u : Piece Arg} {us : List (Piece Arg)}
variable {p p' q : Parser} {args : List Arg} {a o x : Arg}
variable {r : Except Exn Parser}

-- =================================================================== units

/-- The message about an option that is left without its operand. -/
def waiting (o : Arg) : Str :=
  if o = Opt.o then "output file specifier is the last argument".toList
  else if o = Opt.x then "multiArg -x is the last argument".toList
  else if o = Opt.target then "clang -target is the last argument".toList
  else "multi argument ".toList ++ o ++ " is the last argument".toList

/-- A single argument, past the refusals in front: the branches of the
loop in their order. -/
def visitSingle (fs : FileSystem) (a : Arg) (p : Parser) :
    Except Exn Parser :=
  if a.head? = some '@' then
    match isRegularFile fs a.tail with
    | .error e => .error e
    | .ok false => .error (.parserError ("argument file: ".toList ++
        a ++ " doesn't seem to exist".toList))
    | .ok true => .ok p
  else if Opt.o.isPrefixOf a then .ok { p with outfile := a.drop 2 }
  else if a = Opt.c ∨ a = Opt.S then .ok (modeOption a p)
  else if Opt.targetEq.isPrefixOf a then
    .ok { p.push [a] with target := some (a.drop 9) }
  else
    match isRegularFile fs a with
    | .error e => .error e
    | .ok true => checkInputFileCandidate a p
    | .ok false => .ok (p.push [a])

/-- An option with its operand, past the refusals. -/
def visitPair (o x : Arg) (p : Parser) : Except Exn Parser :=
  if o = Opt.o then outputOption x p
  else if o = Opt.x then .ok (languageOption x p)
  else if o = Opt.target then .ok { p.push [o, x] with target := some x }
  else .ok (p.push [o, x])

/-- A unit past the refusals. -/
def accept (fs : FileSystem) : Piece Arg → Parser → Except Exn Parser
  | .single a, p => visitSingle fs a p
  | .pair o x, p => visitPair o x p
  | .dangling o, _ => .error (.parserError (waiting o))

/-- What the loop does with one unit. -/
def visit (fs : FileSystem) (u : Piece Arg) (p : Parser) :
    Except Exn Parser :=
  if ' ' ∈ u.head then .error .fallbackSignal
  else if noDistribute u.head then .error .fallbackSignal
  else accept fs u p

/-- The units of a response file. -/
def fileUnits (fs : FileSystem) (file : Str) : List (Piece Arg) :=
  cut takesOperand (fileArgs (fs.content (cstr file)))

/-- A token that names a response file stands for its units. -/
def opens (fs : FileSystem) : Piece Arg → Option (List (Piece Arg))
  | .single a => if a.head? = some '@' then some (fileUnits fs a.tail)
      else none
  | _ => none

/-- The parser, one unit at a time. -/
def reader (fs : FileSystem) : Reader (Piece Arg) Parser Exn :=
  ⟨visit fs, opens fs⟩

@[simp] theorem reader_visit (fs : FileSystem) (u : Piece Arg) (p : Parser) :
    (reader fs).visit u p = visit fs u p := rfl

/-- The refusals in front. -/
theorem visit_refused (h : ' ' ∈ u.head ∨ noDistribute u.head = true) :
    visit fs u p = .error .fallbackSignal := by
  unfold visit
  by_cases hspace : ' ' ∈ u.head
  · rw [if_pos hspace]
  · rw [if_neg hspace, if_pos (h.resolve_left hspace)]

/-- Past them. -/
theorem visit_clear (hspace : ' ' ∉ u.head)
    (hnd : noDistribute u.head = false) :
    visit fs u p = accept fs u p := by
  unfold visit
  rw [if_neg hspace, if_neg (ne_true_of_eq_false hnd)]

-- ================================================================= the loop

section

variable {read : Str → Parser → Except Exn Parser}
variable {readUnits : List (Piece Arg) → Parser → Except Exn Parser}
variable {rest : List Arg}

theorem loop_single
    (hread : ∀ file p, read file p = readUnits (fileUnits fs file) p)
    (ha : takesOperand a = false)
    (hrest : ∀ p, parseLoop fs read rest p =
      (reader fs).loop readUnits (cut takesOperand rest) p) :
    parseLoop fs read (a :: rest) p =
      (reader fs).loop readUnits (.single a :: cut takesOperand rest) p := by
  simp only [takesOperand, Bool.or_eq_false_iff, decide_eq_false_iff_not]
    at ha
  obtain ⟨⟨⟨ho, hx⟩, ht⟩, hm⟩ := ha
  rw [parseLoop.eq_def, Reader.loop, reader]
  dsimp only
  by_cases hspace : ' ' ∈ a
  · rw [if_pos hspace, visit_refused (u := .single a) (.inl hspace)]
  · rw [if_neg hspace]
    by_cases hnd : noDistribute a = true
    · rw [if_pos hnd, visit_refused (u := .single a) (.inr hnd)]
    · rw [if_neg hnd, visit_clear (u := .single a) hspace
        (Bool.eq_false_iff.mpr hnd), opens, accept, visitSingle]
      dsimp only
      by_cases hat : a.head? = some '@'
      · rw [if_pos hat, if_pos hat, if_pos hat]
        cases isRegularFile fs a.tail with
        | error e => rfl
        | ok b =>
            cases b with
            | false => rfl
            | true =>
                dsimp only
                rw [hread]
                cases readUnits (fileUnits fs a.tail) p with
                | error e => rfl
                | ok q => exact hrest q
      · rw [if_neg hat, if_neg hat, if_neg hat, if_neg ho, if_neg hx,
          if_neg ht, if_neg hm]
        split_ifs
        · exact hrest _
        · exact hrest _
        · exact hrest _
        · cases isRegularFile fs a with
          | error e => rfl
          | ok b =>
              cases b with
              | false => exact hrest _
              | true =>
                  dsimp only
                  cases checkInputFileCandidate a p with
                  | error e => rfl
                  | ok q => exact hrest q

/-- The branches for an option that takes an operand, with and without
one. -/
theorem parseLoop_option (ho : takesOperand o = true)
    (rest : List Arg) (p : Parser) : parseLoop fs read (o :: rest) p =
      match rest with
      | [] => .error (.parserError (waiting o))
      | x :: rest =>
          match visitPair o x p with
          | .error e => .error e
          | .ok q => parseLoop fs read rest q := by
  obtain ⟨hspace, hnd, hat⟩ := takesOperand_facts ho
  rw [parseLoop.eq_def]
  dsimp only
  rw [if_neg hspace, if_neg (ne_true_of_eq_false hnd), if_neg hat]
  rcases takesOperand_cases ho with rfl | rfl | rfl | hm
  · cases rest with
    | nil => rfl
    | cons x rest => rfl
  · cases rest with
    | nil => rfl
    | cons x rest => rfl
  · cases rest with
    | nil => rfl
    | cons x rest => rfl
  · obtain ⟨hpre, hc, hS, h1, h2, h3, heq⟩ := multiArgsCPP_named hm
    rw [if_neg h1, if_neg (ne_true_of_eq_false hpre),
      if_neg (not_or.mpr ⟨hc, hS⟩), if_neg h2, if_neg h3,
      if_neg (ne_true_of_eq_false heq), if_pos hm]
    cases rest with
    | nil =>
        rw [waiting, if_neg h1, if_neg h2, if_neg h3]
    | cons x rest =>
        have hpair : visitPair o x p = .ok (p.push [o, x]) := by
          unfold visitPair
          rw [if_neg h1, if_neg h2, if_neg h3]
        dsimp only
        rw [hpair]

/-- The loop goes through the units of its list. -/
theorem parseLoop_eq
    (hread : ∀ file p, read file p = readUnits (fileUnits fs file) p)
    (args : List Arg) (p : Parser) :
    parseLoop fs read args p =
      (reader fs).loop readUnits (cut takesOperand args) p := by
  induction args using cut_induction (p := takesOperand)
    generalizing p with
  | nil => rfl
  | last o ho =>
      obtain ⟨hspace, hnd, -⟩ := takesOperand_facts ho
      rw [cut_dangling ho, parseLoop_option ho, Reader.loop, reader]
      dsimp only
      rw [visit_clear (u := .dangling o) hspace hnd]
      rfl
  | pair o x rest ho ih =>
      obtain ⟨hspace, hnd, -⟩ := takesOperand_facts ho
      rw [cut_pair ho, parseLoop_option ho, Reader.loop, reader]
      dsimp only
      rw [visit_clear (u := .pair o x) hspace hnd, accept]
      have hopens : opens fs (.pair o x) = none := rfl
      rw [hopens]
      cases visitPair o x p with
      | error e => rfl
      | ok q => exact ih q
  | single a rest ha ih =>
      rw [cut_single ha]
      exact loop_single hread ha ih

end

/-- The parser reads the units of its arguments, and each response file
one level further down. -/
theorem parseArgs_eq (fs : FileSystem) (depth : Nat) (args : List Arg)
    (p : Parser) : parseArgs fs depth args p =
      (reader fs).nested .stackOverflow depth (cut takesOperand args) p := by
  induction depth generalizing args p with
  | zero => rfl
  | succ depth ih => exact parseLoop_eq (fun file p => ih _ p) args p

-- ================================================================== visits

/-- The path whose status the parser asks for when it comes to a single
argument. -/
def singlePath (a : Arg) : Option Str :=
  if a.head? = some '@' then some a.tail
  else if Opt.o.isPrefixOf a then none
  else if a = Opt.c ∨ a = Opt.S then none
  else if Opt.targetEq.isPrefixOf a then none
  else some a

/-- The same for a unit. -/
def statusPath (u : Piece Arg) : Option Str :=
  if ' ' ∈ u.head ∨ noDistribute u.head = true then none
  else
    match u with
    | .single a => singlePath a
    | .pair _ _ | .dangling _ => none

/-- The status of that path cannot be had. -/
def Faulty (fs : FileSystem) (u : Piece Arg) : Prop :=
  ∃ path errno, statusPath u = some path ∧
    fs.status (cstr path) = .error errno

/-- Why a unit that is neither refused in front nor faulty is an error where
it stands. -/
def objection (fs : FileSystem) (u : Piece Arg) (p : Parser) : Option Str :=
  match u with
  | .dangling o => some (waiting o)
  | .pair o _ =>
      if o = Opt.o ∧ p.outfile ≠ [] then
        some ("multiple output files parsed: ".toList ++ p.outfile ++
          " & ".toList ++ Opt.o)
      else none
  | .single a =>
      if kind fs (.single a) = .input ∧ p.infile ≠ [] then
        some ("multiple input files parsed: ".toList ++ p.infile ++
          " & ".toList ++ a)
      else none

/-- All that can come of a unit. -/
inductive Visits (fs : FileSystem) (p : Parser) :
    Piece Arg → Except Exn Parser → Prop
  | refused {u : Piece Arg} (h : ' ' ∈ u.head ∨ noDistribute u.head = true) :
      Visits fs p u (.error .fallbackSignal)
  | faulty {u : Piece Arg} {errno : Nat} (h : Faulty fs u) :
      Visits fs p u (.error (.filesystemError errno))
  | missing {a : Arg} (hspace : ' ' ∉ a) (hat : a.head? = some '@')
      (hf : ¬Faulty fs (.single a))
      (h : fs.status (cstr a.tail) ≠ .regular) :
      Visits fs p (.single a) (.error (.parserError
        ("argument file: ".toList ++ a ++ " doesn't seem to exist".toList)))
  | file {a : Arg} (hspace : ' ' ∉ a) (hat : a.head? = some '@')
      (hf : ¬Faulty fs (.single a))
      (h : fs.status (cstr a.tail) = .regular) :
      Visits fs p (.single a) (.ok p)
  | objection {u : Piece Arg} {m : Str} (hclosed : opens fs u = none)
      (hf : ¬Faulty fs u) (h : objection fs u p = some m)
      (hclear : ' ' ∉ u.head ∧ noDistribute u.head = false) :
      Visits fs p u (.error (.parserError m))
  | effect {u : Piece Arg} (hclosed : opens fs u = none)
      (hf : ¬Faulty fs u) (h : objection fs u p = none)
      (hclear : ' ' ∉ u.head ∧ noDistribute u.head = false) :
      Visits fs p u (.ok (effect fs u p))

section

variable (hclear : ¬(' ' ∈ u.head ∨ noDistribute u.head = true))

include hclear in
/-- A unit without a path is not faulty. -/
theorem not_faulty_of_pair (hu : ∀ a, u ≠ .single a) : ¬Faulty fs u := by
  intro hf
  obtain ⟨path, errno, hpath, -⟩ := hf
  unfold statusPath at hpath
  rw [if_neg hclear] at hpath
  cases u with
  | single a => exact hu a rfl
  | pair o x => cases hpath
  | dangling o => cases hpath

end

theorem visits_pair (hclear : ¬(' ' ∈ o ∨ noDistribute o = true)) :
    Visits fs p (.pair o x) (visitPair o x p) := by
  have hf : ¬Faulty fs (.pair o x) := not_faulty_of_pair hclear nofun
  have hc := not_or.mp hclear
  have hc : ' ' ∉ o ∧ noDistribute o = false :=
    ⟨hc.1, Bool.eq_false_iff.mpr hc.2⟩
  have heffect : o ≠ Opt.o →
      Visits fs p (.pair o x) (.ok (effect fs (.pair o x) p)) :=
    fun ho => .effect rfl hf (if_neg fun h => ho h.1) hc
  unfold visitPair
  by_cases h1 : o = Opt.o
  · rw [if_pos h1]
    unfold outputOption
    by_cases hout : p.outfile = []
    · have hnone : objection fs (.pair o x) p = none :=
        if_neg fun h => h.2 hout
      have heq : effect fs (.pair o x) p = { p with outfile := x } := by
        rw [effect, kind, if_pos h1]
      rw [if_neg (not_not.mpr hout), ← heq]
      exact .effect rfl hf hnone hc
    · rw [if_pos hout]
      exact .objection rfl hf (if_pos ⟨h1, hout⟩) hc
  · have he := heffect h1
    rw [effect, kind, if_neg h1] at he
    rw [if_neg h1]
    by_cases h2 : o = Opt.x
    · rw [if_pos h2] at he ⊢
      exact he
    · rw [if_neg h2] at he ⊢
      by_cases h3 : o = Opt.target
      · rw [if_pos h3] at he ⊢
        exact he
      · rw [if_neg h3] at he ⊢
        exact he

theorem visits_single (hclear : ¬(' ' ∈ a ∨ noDistribute a = true)) :
    Visits fs p (.single a) (visitSingle fs a p) := by
  have hpath : statusPath (.single a) = singlePath a := if_neg hclear
  have hc := not_or.mp hclear
  have hc : ' ' ∉ a ∧ noDistribute a = false :=
    ⟨hc.1, Bool.eq_false_iff.mpr hc.2⟩
  have hno : singlePath a = none → ¬Faulty fs (.single a) := by
    intro hn hf
    obtain ⟨path, errno, hp, -⟩ := hf
    rw [hpath, hn] at hp
    cases hp
  have hsome : ∀ path, singlePath a = some path →
      (∀ errno, fs.status (cstr path) ≠ .error errno) →
      ¬Faulty fs (.single a) := by
    intro path hp hst hf
    obtain ⟨path', errno, hp', herr⟩ := hf
    rw [hpath, hp] at hp'
    cases hp'
    exact hst errno herr
  unfold singlePath at hno hsome hpath
  unfold visitSingle
  by_cases hat : a.head? = some '@'
  · rw [if_pos hat] at hsome hpath
    rw [if_pos hat]
    unfold isRegularFile
    cases hst : fs.status (cstr a.tail) with
    | regular =>
        exact .file hc.1 hat (hsome _ rfl (by simp [hst])) hst
    | other =>
        exact .missing hc.1 hat (hsome _ rfl (by simp [hst])) (by simp [hst])
    | notFound =>
        exact .missing hc.1 hat (hsome _ rfl (by simp [hst])) (by simp [hst])
    | error errno => exact .faulty ⟨_, errno, hpath, hst⟩
  · have hclosed : opens fs (.single a) = none := if_neg hat
    have heffect : ¬Faulty fs (.single a) → kind fs (.single a) ≠ .input →
        Visits fs p (.single a) (.ok (effect fs (.single a) p)) :=
      fun hf hk => .effect hclosed hf (if_neg fun h => hk h.1) hc
    unfold effect at heffect
    rw [if_neg hat] at hno hsome hpath
    rw [if_neg hat]
    by_cases ho : Opt.o.isPrefixOf a = true
    · have hk : kind fs (.single a) = .output (a.drop 2) := if_pos ho
      rw [hk] at heffect
      rw [if_pos ho] at hno ⊢
      exact heffect (hno rfl) (by simp)
    · rw [if_neg ho] at hno hsome hpath ⊢
      by_cases hm : a = Opt.c ∨ a = Opt.S
      · have hk : kind fs (.single a) = .mode := by
          rw [kind, if_neg ho, if_pos hm]
        rw [hk] at heffect
        rw [if_pos hm] at hno ⊢
        exact heffect (hno rfl) (by simp)
      · rw [if_neg hm] at hno hsome hpath ⊢
        by_cases ht : Opt.targetEq.isPrefixOf a = true
        · have hk : kind fs (.single a) = .target (a.drop 9) := by
            rw [kind, if_neg ho, if_neg hm, if_pos ht]
          rw [hk] at heffect
          rw [if_pos ht] at hno ⊢
          exact heffect (hno rfl) (by simp)
        · have hk : kind fs (.single a) =
              if isInputFile fs a then .input else .other := by
            rw [kind, if_neg ho, if_neg hm, if_neg ht]
          rw [if_neg ht] at hsome hpath ⊢
          rw [hk] at heffect
          unfold isInputFile at hk heffect
          unfold isRegularFile
          cases hst : fs.status (cstr a) with
          | error errno => exact .faulty ⟨_, errno, hpath, hst⟩
          | other =>
              rw [hst] at heffect
              exact heffect (hsome _ rfl (by simp [hst])) (by simp)
          | notFound =>
              rw [hst] at heffect
              exact heffect (hsome _ rfl (by simp [hst])) (by simp)
          | regular =>
              have hf := hsome _ rfl (by simp [hst])
              dsimp only
              unfold checkInputFileCandidate
              by_cases hext : extension a ∈ inputFileExtension
              · have hin : kind fs (.single a) = .input := by
                  rw [hk]
                  simp [hst, hext]
                rw [if_pos hext]
                by_cases hinf : p.infile = []
                · have heq : effect fs (.single a) p = { p with
                      infile := a
                      language := if p.language = .NONE then
                        languageOfExtension (extension a)
                        else p.language } := by
                    rw [effect, hin]
                    rfl
                  rw [if_neg (not_not.mpr hinf), ← heq]
                  exact .effect hclosed hf (if_neg fun h => h.2 hinf) hc
                · rw [if_pos hinf]
                  exact .objection hclosed hf (if_pos ⟨hin, hinf⟩) hc
              · rw [if_neg hext]
                rw [hst] at heffect
                simp only [hext, decide_true, decide_false, Bool.and_false,
                  Bool.false_eq_true, if_false] at heffect
                exact heffect hf (by simp)

/-- What the loop does with a unit is one of these. -/
theorem visit_visits (fs : FileSystem) (u : Piece Arg) (p : Parser) :
    Visits fs p u (visit fs u p) := by
  by_cases hclear : ' ' ∈ u.head ∨ noDistribute u.head = true
  · rw [visit_refused hclear]
    exact .refused hclear
  · have hc := not_or.mp hclear
    rw [visit_clear hc.1 (Bool.eq_false_iff.mpr hc.2)]
    cases u with
    | single a => exact visits_single hclear
    | pair o x => exact visits_pair hclear
    | dangling o =>
        exact .objection rfl (not_faulty_of_pair hclear nofun) rfl
          ⟨hc.1, Bool.eq_false_iff.mpr hc.2⟩

-- ================================================================= returns

/-- A unit that is read has passed the checks in front. -/
theorem clear_of_visit (h : visit fs u p = .ok q) :
    noDistribute u.head = false ∧ ' ' ∉ u.head := by
  have hclear : ¬(' ' ∈ u.head ∨ noDistribute u.head = true) := by
    intro hrefused
    rw [visit_refused hrefused] at h
    cases h
  have hc := not_or.mp hclear
  exact ⟨Bool.eq_false_iff.mpr hc.2, hc.1⟩

/-- A unit that opens no file is read by its effect, and legal. -/
theorem legal_of_visit (hopens : opens fs u = none)
    (hwell : (∀ o, u ≠ .dangling o) → u.WellCut takesOperand)
    (h : visit fs u p = .ok q) : Legal fs p u ∧ q = effect fs u p := by
  have hv := visit_visits fs u p
  rw [h] at hv
  cases hv with
  | file _ hat =>
      rw [opens, if_pos hat] at hopens
      cases hopens
  | effect _ _ hno hclear =>
      refine ⟨?_, rfl⟩
      cases u with
      | dangling o => cases hno
      | pair o x =>
          have hcut := hwell (by simp)
          refine ⟨hcut, hclear.2, hclear.1, (takesOperand_facts hcut).2.2,
            fun hk => absurd hk kind_pair, fun y hy => ?_⟩
          cases hy
          by_contra hout
          rw [objection, if_pos ⟨rfl, hout⟩] at hno
          cases hno
      | single a =>
          refine ⟨hwell (by simp), hclear.2, hclear.1, fun hat => ?_,
            fun hk => ?_, fun y hy => by cases hy⟩
          · have hat : a.head? = some '@' := hat
            rw [opens, if_pos hat] at hopens
            cases hopens
          · by_contra hin
            rw [objection, if_pos ⟨hk, hin⟩] at hno
            cases hno

/-- A unit that opens a file leaves the parser as it is. -/
theorem single_of_visit {vs : List (Piece Arg)} (hopens : opens fs u = some vs)
    (h : visit fs u p = .ok q) :
    ∃ a, u = .single a ∧ a.head? = some '@' ∧ vs = fileUnits fs a.tail ∧
      q = p := by
  have hv := visit_visits fs u p
  rw [h] at hv
  cases hv with
  | file _ hat =>
      rw [opens, if_pos hat] at hopens
      cases hopens
      exact ⟨_, rfl, hat, rfl, rfl⟩
  | effect hnone =>
      rw [hnone] at hopens
      cases hopens

/-- A parse that returns has run over the expansion of its arguments. -/
theorem parseArgs_reads {depth : Nat}
    (h : parseArgs fs depth args p = .ok q) :
    Reads fs (expand fs depth args) p q := by
  induction depth generalizing args p q with
  | zero => cases h
  | succ depth ih =>
      rw [parseArgs_eq] at h
      have hwell : ∀ u ∈ cut takesOperand args, (∀ o, u ≠ .dangling o) →
          u.WellCut takesOperand := fun u => wellCut_of_mem_cut
      refine Reader.loop_returns (P := fun us p =>
        (∀ u ∈ us, (∀ o, u ≠ .dangling o) → u.WellCut takesOperand) →
          Reads fs (us.flatMap (splice fun argsFile =>
            expand fs depth (fileArgs (fs.content (cstr argsFile))))) p q)
        ?_ ?_ ?_ h hwell
      · exact fun _ => .nil q
      · intro u us p p' hv ho hrest hwell
        obtain ⟨hlegal, rfl⟩ :=
          legal_of_visit ho (hwell u (List.mem_cons_self ..)) hv
        have hsplice : ∀ read, splice read u = [u] := by
          intro read
          cases u with
          | single a => exact if_neg hlegal.notFile
          | pair o x => rfl
          | dangling o => rfl
        rw [List.flatMap_cons, hsplice]
        exact .cons hlegal
          (hrest fun u hu => hwell u (List.mem_cons_of_mem _ hu))
      · intro u us vs p p' p'' hv ho hread hrest hwell
        obtain ⟨a, rfl, hat, rfl, rfl⟩ := single_of_visit ho hv
        rw [List.flatMap_cons, splice, if_pos hat]
        refine (ih ?_).append
          (hrest fun u hu => hwell u (List.mem_cons_of_mem _ hu))
        rw [parseArgs_eq]
        exact hread

-- ================================================================ outcomes

/-- An outcome the client expects: a parser, or one of the two exceptions
it turns into a local compile. -/
def Tame : Except Exn Parser → Prop
  | .ok _ | .error (.parserError _) | .error .fallbackSignal => True
  | .error (.filesystemError _) | .error .stackOverflow => False

/-- A unit whose path has a status is dealt with; one whose path has none
raises an exception the client does not expect. -/
theorem visit_cases (fs : FileSystem) (u : Piece Arg) (p : Parser) :
    ¬Faulty fs u ∧ Tame (visit fs u p) ∨
      Faulty fs u ∧
        ∃ errno, visit fs u p = .error (.filesystemError errno) := by
  have h := visit_visits fs u p
  generalize visit fs u p = r at h
  cases h with
  | refused hr =>
      refine .inl ⟨fun hf => ?_, trivial⟩
      obtain ⟨path, errno, hpath, -⟩ := hf
      unfold statusPath at hpath
      rw [if_pos hr] at hpath
      cases hpath
  | faulty hf => exact .inr ⟨hf, _, rfl⟩
  | missing _ _ hf => exact .inl ⟨hf, trivial⟩
  | file _ _ hf => exact .inl ⟨hf, trivial⟩
  | objection _ hf => exact .inl ⟨hf, trivial⟩
  | effect _ hf => exact .inl ⟨hf, trivial⟩

theorem visit_ne_overflow (u : Piece Arg) (p : Parser) :
    (reader fs).visit u p ≠ .error .stackOverflow := by
  intro h
  rcases visit_cases fs u p with ⟨-, ht⟩ | ⟨-, errno, he⟩
  · rw [← reader_visit, h] at ht
    exact ht
  · rw [← reader_visit, h] at he
    cases he

/-- What the parser comes to, on a stack that is deep enough. -/
def Parses (fs : FileSystem) (args : List Arg) (p : Parser)
    (r : Except Exn Parser) : Prop :=
  ∃ depth, parseArgs fs depth args p = r ∧ r ≠ .error .stackOverflow

/-- What the constructor comes to. -/
def Constructs (fs : FileSystem) (args : List Arg)
    (r : Except Exn Parser) : Prop :=
  ∃ depth, parse fs depth args = r ∧ r ≠ .error .stackOverflow

theorem parses_iff : Parses fs args p r ↔
    (reader fs).Ends (cut takesOperand args) p r := by
  unfold Parses
  simp only [parseArgs_eq]
  exact Reader.nested_iff visit_ne_overflow

/-- The constructor raises no other error than its own. -/
theorem finish_tame (p : Parser) : Tame (finish p) := by
  unfold finish
  dsimp only
  split_ifs
  all_goals trivial

theorem finish_ne_overflow (p : Parser) :
    finish p ≠ .error .stackOverflow := by
  intro h
  have ht := finish_tame p
  rw [h] at ht
  exact ht

theorem constructs_iff : Constructs fs args r ↔
    (∃ p, Parses fs args Parser.empty (.ok p) ∧ r = finish p) ∨
      ∃ e, Parses fs args Parser.empty (.error e) ∧ r = .error e := by
  unfold Constructs Parses parse
  constructor
  · intro hex
    obtain ⟨depth, hr, hne⟩ := hex
    cases hq : parseArgs fs depth args Parser.empty with
    | error e =>
        rw [hq] at hr
        rw [← hr] at hne
        exact .inr ⟨e, ⟨depth, hq, hne⟩, hr.symm⟩
    | ok q =>
        rw [hq] at hr
        exact .inl ⟨q, ⟨depth, hq, nofun⟩, hr.symm⟩
  · intro hcase
    rcases hcase with ⟨p, ⟨depth, hp, -⟩, rfl⟩ | ⟨e, ⟨depth, he, hne⟩, rfl⟩
    · refine ⟨depth, ?_, finish_ne_overflow p⟩
      rw [hp]
    · refine ⟨depth, ?_, hne⟩
      rw [he]

theorem Constructs.det {r' : Except Exn Parser} (h : Constructs fs args r)
    (h' : Constructs fs args r') : r = r' := by
  simp only [constructs_iff, parses_iff] at h h'
  rcases h with ⟨p, hp, rfl⟩ | ⟨e, he, rfl⟩
  · rcases h' with ⟨p', hp', rfl⟩ | ⟨e', he', rfl⟩
    · cases hp.det hp'
      rfl
    · cases hp.det he'
  · rcases h' with ⟨p', hp', rfl⟩ | ⟨e', he', rfl⟩
    · cases he.det hp'
    · cases he.det he'
      rfl

end Distplusplus.Client
