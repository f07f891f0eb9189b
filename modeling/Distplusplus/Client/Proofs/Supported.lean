/-
What the list of supported compilers says.

`updateServer` edits the list it finds: it keeps the client's compiler in it
or takes it out, but a compiler that is not in the list is not put in. Only
the client that writes the first record of a server starts a list. So a
server's list holds the compiler of that client, until it is once reported
as unsupported, and never another one (`storedCompilers_updated`); and one
update does what it should unless a new compiler is to be added to an old
list.

The memory behind a stored value, which `istr.str` reads as well, is taken
to start with a NUL here: the value is the bytes last written.
-/
import Distplusplus.Client.Proofs.Registry
import Distplusplus.Lib.Text
import Distplusplus.Lib.Trace

namespace Distplusplus.Client

open Lib Common

variable {D : Type} [Store D Str Str] {views : Views} {db : D}
variable {server name : Str} {supported : Bool}

-- ================================================================ the list

/-- What `getline` reads are the lines between slashes. -/
theorem getlines_eq (text : Str) : getlines text = lines '/' text := by
  induction text with
  | nil => rfl
  | cons c text ih =>
      unfold getlines at ih ⊢
      rw [segments, lines, ← ih]
      cases hs : segments text with
      | nil => exact absurd hs (segments_ne_nil text)
      | cons s ss =>
          by_cases hc : c = '/'
          · rw [if_pos hc, if_pos hc, List.getLast?_cons_cons]
            split_ifs
            · rfl
            · rfl
          · rw [if_neg hc, if_neg hc]
            dsimp only
            cases ss with
            | nil =>
                cases s with
                | nil => rfl
                | cons d s => rfl
            | cons s' ss =>
                rw [List.getLast?_cons_cons, List.getLast?_cons_cons]
                split_ifs
                · rfl
                · rfl

/-- The list of a server, as it is stored: nothing, if there is no
record. -/
def storedCompilers (db : D) (server : Str) : List Str :=
  match Store.get db (key server .supportedCompilers) with
  | some supportedCompilers => getlines supportedCompilers
  | none => []

/-- An update keeps every other compiler, and its own if it is supported. -/
def keeps (name : Str) (supported : Bool) (compiler : Str) : Bool :=
  decide (compiler ≠ name) || supported

theorem editCompilers_eq (name : Str) (supported : Bool) (text : Str) :
    editCompilers name supported text =
      ((getlines text).filter (keeps name supported)).flatMap
        fun compiler => compiler ++ ['/'] := by
  unfold editCompilers
  induction getlines text with
  | nil => rfl
  | cons compiler rest ih =>
      rw [List.flatMap_cons, ih, List.filter_cons]
      by_cases hname : compiler = name
      · cases supported with
        | true => simp [hname, keeps]
        | false => simp [hname, keeps]
      · simp [hname, keeps]

/-- The edited list reads as the kept part of the old one. -/
theorem getlines_editCompilers (name : Str) (supported : Bool)
    (text : Str) : getlines (editCompilers name supported text) =
      (getlines text).filter (keeps name supported) := by
  rw [editCompilers_eq, getlines_eq, lines_terminated]
  intro compiler hc
  have hmem := List.mem_of_mem_filter hc
  rw [getlines_eq] at hmem
  exact not_mem_of_mem_lines hmem

/-- A list of one. -/
theorem getlines_single (h : '/' ∉ name) :
    getlines (name ++ "/".toList) = [name] := by
  rw [getlines_eq]
  exact lines_append h []

-- ============================================================== one update

/-- What `updateServer` stores. -/
theorem get_updateServer_compilers (now : Int64) (page : Str)
    (queryAnswer : QueryAnswer) :
    Store.get (updateServer views name now page db server queryAnswer)
        (key server .supportedCompilers) =
      some (match Store.get db (key server .supportedCompilers) with
        | some supportedCompilers =>
            editCompilers name queryAnswer.compilerSupported
              (cstr (supportedCompilers ++ page))
        | none =>
            if queryAnswer.compilerSupported then name ++ "/".toList
            else []) := by
  have hmiss : ∀ f : Field, f ≠ .supportedCompilers → ∀ (db : D) (v : Str),
      Store.get (Store.put db (key server f) v)
        (key server .supportedCompilers) =
      Store.get db (key server .supportedCompilers) :=
    fun f hf db v => Store.get_put_ne _ _ _ _
      fun he => hf (key_injective he).2.symm
  unfold updateServer
  cases hold : Store.get db (key server .supportedCompilers) with
  | none =>
      simp only [Store.get_put_self, hmiss .maxJobs nofun,
        hmiss .currentLoad nofun, hmiss .compressionTypeSupported nofun,
        hmiss .age nofun, hmiss .name nofun, hold]
  | some old =>
      simp only [Store.get_put_self, hmiss .maxJobs nofun,
        hmiss .currentLoad nofun, hmiss .compressionTypeSupported nofun,
        hmiss .age nofun, hmiss .name nofun, hold]

/-- An update of an old list. -/
theorem storedCompilers_old {now : Int64} {page old : Str}
    {queryAnswer : QueryAnswer}
    (hold : Store.get db (key server .supportedCompilers) = some old)
    (hread : cstr (old ++ page) = old) :
    storedCompilers (updateServer views name now page db server queryAnswer)
        server =
      (storedCompilers db server).filter
        (keeps name queryAnswer.compilerSupported) := by
  unfold storedCompilers
  rw [get_updateServer_compilers, hold]
  dsimp only
  rw [hread, getlines_editCompilers]

/-- The first update. -/
theorem storedCompilers_new {now : Int64} {page : Str}
    {queryAnswer : QueryAnswer} (hname : '/' ∉ name)
    (hnone : Store.get db (key server .supportedCompilers) = none) :
    storedCompilers (updateServer views name now page db server queryAnswer)
        server = [name].filter (keeps name queryAnswer.compilerSupported) := by
  unfold storedCompilers
  rw [get_updateServer_compilers, hnone]
  dsimp only
  cases queryAnswer.compilerSupported with
  | true =>
      rw [if_pos rfl, getlines_single hname]
      simp [keeps]
  | false =>
      rw [if_neg Bool.false_ne_true]
      simp [keeps]
      rfl

/-- The list is the old one without the compiler, and with it if it is
supported. -/
def Faithful (views : Views) (name : Str) (now : Int64) (page : Str) (db : D)
    (server : Str) (queryAnswer : QueryAnswer) : Prop :=
  ∀ compiler, compiler ∈ storedCompilers (updateServer views name now page db
      server queryAnswer) server ↔
    compiler ∈ storedCompilers db server ∧ compiler ≠ name ∨
      compiler = name ∧ queryAnswer.compilerSupported = true

/-- One update is faithful unless it should add a compiler to a list that
is there. -/
theorem faithful_iff (hname : '/' ∉ name) (now : Int64) {page : Str}
    (queryAnswer : QueryAnswer)
    (hread : ∀ old, Store.get db (key server .supportedCompilers) = some old →
      cstr (old ++ page) = old) :
    Faithful views name now page db server queryAnswer ↔
      (queryAnswer.compilerSupported = true →
        Store.get db (key server .supportedCompilers) ≠ none →
        name ∈ storedCompilers db server) := by
  unfold Faithful
  cases hold : Store.get db (key server .supportedCompilers) with
  | none =>
      have hempty : storedCompilers db server = [] := by
        unfold storedCompilers
        rw [hold]
      refine iff_of_true (fun compiler => ?_) fun _ h => absurd rfl h
      rw [storedCompilers_new hname hold, hempty]
      by_cases hc : compiler = name
      · simp [hc, keeps]
      · simp [hc]
  | some old =>
      simp only [storedCompilers_old hold (hread old hold), List.mem_filter]
      constructor
      · intro h hsup _
        exact ((h name).mpr (.inr ⟨rfl, hsup⟩)).1
      · intro h compiler
        by_cases hc : compiler = name
        · rw [hc]
          constructor
          · intro hin
            exact .inr ⟨rfl, by simpa [keeps] using hin.2⟩
          · intro hin
            rcases hin with ⟨-, hne⟩ | ⟨-, hsup⟩
            · exact absurd rfl hne
            · exact ⟨h hsup nofun, by simp [keeps, hsup]⟩
        · simp [hc, keeps]

-- ============================================================ many updates

/-- An update of a server's record, by some client. -/
structure Update where
  compilerName : Str
  now : Int64
  page : Str
  queryAnswer : QueryAnswer

/-- A compiler's name is a file name, and the stored value is followed by a
NUL. -/
def Update.Plain (u : Update) : Prop :=
  '/' ∉ u.compilerName ∧ '\x00' ∉ u.compilerName ∧ cstr u.page = []

/-- The database after some updates of one server, the newest first. -/
def updated (views : Views) (db : D) (server : Str) : List Update → D
  | [] => db
  | u :: past => updateServer views u.compilerName u.now u.page
      (updated views db server past) server u.queryAnswer

theorem mem_editCompilers {text : Str} {c : Char}
    (h : c ∈ editCompilers name supported text) : c ∈ text ∨ c = '/' := by
  rw [editCompilers_eq, List.mem_flatMap] at h
  obtain ⟨compiler, hmem, hc⟩ := h
  rw [getlines_eq] at hmem
  rcases List.mem_append.mp hc with hc | hc
  · exact .inl (mem_of_mem_lines (List.mem_of_mem_filter hmem) hc)
  · exact .inr (List.mem_singleton.mp hc)

/-- What plain updates store is read back as it is. -/
theorem updated_plain {us : List Update}
    (hnone : Store.get db (key server .supportedCompilers) = none)
    (hus : ∀ u ∈ us, u.Plain) {v : Str}
    (h : Store.get (updated views db server us)
      (key server .supportedCompilers) = some v) : '\x00' ∉ v := by
  cases us with
  | nil =>
      rw [updated, hnone] at h
      cases h
  | cons u past =>
      rw [updated, get_updateServer_compilers, Option.some.injEq] at h
      cases hold : Store.get (updated views db server past)
          (key server .supportedCompilers) with
      | some old =>
          rw [hold] at h
          rw [← h]
          intro hc
          rcases mem_editCompilers hc with hc | hc
          · exact nul_not_mem_cstr _ hc
          · exact absurd hc (by decide)
      | none =>
          rw [hold] at h
          rw [← h]
          cases u.queryAnswer.compilerSupported with
          | false => exact List.not_mem_nil
          | true =>
              have hname := (hus u (List.mem_cons_self ..)).2.1
              simp only [if_true, List.mem_append, not_or]
              exact ⟨hname, by decide⟩

/-- The first update leaves a record, and no later one deletes it. -/
theorem updated_ne_none {us : List Update} (hne : us ≠ []) :
    ∃ v, Store.get (updated views db server us)
      (key server .supportedCompilers) = some v := by
  cases us with
  | nil => exact absurd rfl hne
  | cons u past => exact ⟨_, get_updateServer_compilers ..⟩

/-- Whether no update has reported the compiler as unsupported. -/
def neverDropped (us : List Update) (compiler : Str) : Bool :=
  us.all fun u => keeps u.compilerName u.queryAnswer.compilerSupported compiler

/-- The list holds the compiler of the first update, if it was never
dropped. -/
theorem storedCompilers_updated {us : List Update}
    (hnone : Store.get db (key server .supportedCompilers) = none)
    (hus : ∀ u ∈ us, u.Plain) :
    storedCompilers (updated views db server us) server =
      (us.getLast?.map Update.compilerName).toList.filter
        (neverDropped us) := by
  induction us with
  | nil =>
      unfold storedCompilers
      rw [updated, hnone]
      rfl
  | cons u past ih =>
      have hu := hus u (List.mem_cons_self ..)
      have hpast := fun v hv => hus v (List.mem_cons_of_mem u hv)
      have hdropped : neverDropped (u :: past) = fun compiler =>
          keeps u.compilerName u.queryAnswer.compilerSupported compiler &&
            neverDropped past compiler := rfl
      rw [updated, hdropped]
      by_cases hne : past = []
      · subst hne
        rw [updated, storedCompilers_new hu.1 hnone]
        simp [neverDropped]
      · obtain ⟨old, hold⟩ : ∃ old, Store.get (updated views db server past)
            (key server .supportedCompilers) = some old := updated_ne_none hne
        have hread := cstr_append_left (updated_plain hnone hpast hold) u.page
        rw [hu.2.2, List.append_nil] at hread
        rw [storedCompilers_old hold hread, ih hpast, List.filter_filter,
          List.getLast?_cons_of_ne_nil hne]

/-- The latest answer about a compiler was that it is supported. -/
def latestSupported (us : List Update) (compiler : Str) : Bool :=
  (latest Update.compilerName us compiler).any fun u =>
    u.queryAnswer.compilerSupported

theorem mem_storedCompilers_updated {us : List Update} {compiler : Str}
    (hnone : Store.get db (key server .supportedCompilers) = none)
    (hus : ∀ u ∈ us, u.Plain) :
    compiler ∈ storedCompilers (updated views db server us) server ↔
      us.getLast?.map Update.compilerName = some compiler ∧
        neverDropped us compiler = true := by
  rw [storedCompilers_updated hnone hus, List.mem_filter, Option.mem_toList]

/-- A compiler that was never dropped was supported in its latest answer. -/
theorem latestSupported_of_neverDropped {us : List Update} {compiler : Str}
    (hfirst : us.getLast?.map Update.compilerName = some compiler)
    (hkept : neverDropped us compiler = true) :
    latestSupported us compiler = true := by
  obtain ⟨first, hlast, hname⟩ := Option.map_eq_some_iff.mp hfirst
  unfold latestSupported latest
  cases hfind : us.find? fun u => decide (u.compilerName = compiler) with
  | none =>
      have hno := List.find?_eq_none.mp hfind first (List.mem_of_getLast? hlast)
      exact absurd (decide_eq_true hname) hno
  | some u =>
      have hu := List.find?_some hfind
      have hkeeps := List.all_eq_true.mp hkept u
        (List.mem_of_find?_eq_some hfind)
      rw [decide_eq_true_eq] at hu
      simpa [keeps, hu] using hkeeps

/-- The list holds each compiler whose latest answer was that it is
supported, once. -/
def FaithfulList (views : Views) (db : D) (server : Str)
    (us : List Update) : Prop :=
  (storedCompilers (updated views db server us) server).Nodup ∧
    ∀ compiler,
      compiler ∈ storedCompilers (updated views db server us) server ↔
        latestSupported us compiler = true

/-- After some updates the list is faithful if nothing should be in it but
the compiler of the first one, and that was never dropped. -/
theorem faithfulList_iff {us : List Update}
    (hnone : Store.get db (key server .supportedCompilers) = none)
    (hus : ∀ u ∈ us, u.Plain) :
    FaithfulList views db server us ↔
      ∀ compiler, latestSupported us compiler = true →
        us.getLast?.map Update.compilerName = some compiler ∧
          neverDropped us compiler = true := by
  unfold FaithfulList
  simp only [mem_storedCompilers_updated hnone hus]
  constructor
  · exact fun h compiler => (h.2 compiler).mpr
  · intro h
    refine ⟨?_, fun compiler =>
      ⟨fun hin => latestSupported_of_neverDropped hin.1 hin.2, h compiler⟩⟩
    rw [storedCompilers_updated hnone hus]
    apply List.Nodup.filter
    cases us.getLast?.map Update.compilerName with
    | none => exact List.nodup_nil
    | some compiler => exact List.nodup_singleton compiler

-- ============================================================ the theorem

/-- One update is faithful exactly when it need not add a compiler to a list
that is there; and so are many, from no record on, exactly when all that
should be in the list is the compiler of the first update, never dropped
since. -/
theorem supported_faithful_iff (views : Views) (db : D) (server : Str) :
    (∀ name now page queryAnswer, '/' ∉ name →
      (∀ old, Store.get db (key server .supportedCompilers) = some old →
        cstr (old ++ page) = old) →
      (Faithful views name now page db server queryAnswer ↔
        (queryAnswer.compilerSupported = true →
          Store.get db (key server .supportedCompilers) ≠ none →
          name ∈ storedCompilers db server))) ∧
    (Store.get db (key server .supportedCompilers) = none →
      ∀ us : List Update, (∀ u ∈ us, u.Plain) →
        (FaithfulList views db server us ↔
          ∀ compiler, latestSupported us compiler = true →
            us.getLast?.map Update.compilerName = some compiler ∧
              neverDropped us compiler = true)) :=
  ⟨fun _ now _ queryAnswer hname hread =>
      faithful_iff hname now queryAnswer hread,
    fun hnone _ hus => faithfulList_iff hnone hus⟩

/-- An answer for a compiler. -/
def answerFor (compiler : Str) (supported : Bool) : Update :=
  ⟨compiler, 0, [], ⟨supported, true, 0, 8⟩⟩

/-- The first client's compiler is supported, the second one's is not. -/
theorem supported_faithful_gcc :
    FaithfulList littleEndian
      (Store.empty : Std.ExtTreeMap Str Str compare) "h".toList
      [answerFor "clang".toList false, answerFor "gcc".toList true] := by
  have hplain : ∀ u ∈ [answerFor "clang".toList false,
      answerFor "gcc".toList true], u.Plain := by
    intro u hu
    simp only [List.mem_cons, List.not_mem_nil, or_false] at hu
    rcases hu with rfl | rfl
    · exact ⟨by decide, by decide, rfl⟩
    · exact ⟨by decide, by decide, rfl⟩
  refine ((supported_faithful_iff littleEndian
    (Store.empty : Std.ExtTreeMap Str Str compare) "h".toList).2 rfl _
    hplain).mpr fun compiler h => ?_
  by_cases hgcc : compiler = "gcc".toList
  · rw [hgcc]
    exact ⟨rfl, by decide⟩
  · exfalso
    by_cases hclang : compiler = "clang".toList
    · rw [hclang] at h
      exact absurd h (by decide)
    · have hnone : latest Update.compilerName
          [answerFor "clang".toList false, answerFor "gcc".toList true]
          compiler = none := by
        rw [latest, List.find?_eq_none]
        intro u hu
        simp only [List.mem_cons, List.not_mem_nil, or_false] at hu
        rcases hu with rfl | rfl
        · exact fun he => hclang (of_decide_eq_true he).symm
        · exact fun he => hgcc (of_decide_eq_true he).symm
      rw [latestSupported, hnone] at h
      cases h

/-- The second client's compiler is not in the list, though its answer was
that it is supported. -/
theorem second_compiler_missing :
    ¬FaithfulList littleEndian
        (Store.empty : Std.ExtTreeMap Str Str compare) "h".toList
        [answerFor "clang".toList true, answerFor "gcc".toList true] ∧
      storedCompilers (updated littleEndian
        (Store.empty : Std.ExtTreeMap Str Str compare) "h".toList
        [answerFor "clang".toList true, answerFor "gcc".toList true])
        "h".toList = table ["gcc"] := by
  have hlist : storedCompilers (updated littleEndian
      (Store.empty : Std.ExtTreeMap Str Str compare) "h".toList
      [answerFor "clang".toList true, answerFor "gcc".toList true])
      "h".toList = table ["gcc"] := by
    rw [storedCompilers_updated rfl]
    · decide +kernel
    · intro u hu
      simp only [List.mem_cons, List.not_mem_nil, or_false] at hu
      rcases hu with rfl | rfl
      all_goals exact ⟨by decide, by decide, rfl⟩
  refine ⟨fun h => ?_, hlist⟩
  have hin := (h.2 "clang".toList).mpr (by decide +kernel)
  rw [hlist] at hin
  revert hin
  decide +kernel

end Distplusplus.Client
