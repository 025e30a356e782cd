/-
This file shows that nobody can tell what a session has kept. Each stage is
described by what it makes from scratch, from the program, the table and the
options alone. The caches of a session are coherent if they hold nothing but what
the stages make from scratch. A stage that is asked for in such a session returns
what it makes from scratch, whether it succeeds, fails, or fails halfway with some
caches filled, and leaves the caches coherent; so the answers to any sequence of
requests are those that a new session gives to each of them.

What the errors of a program change is settled on the stages from scratch: a
program with errors is refused with exactly these errors if the options say so,
and otherwise the option changes nothing.
-/

import JavaMinus.Build.Session
import JavaMinus.Proofs.Lowering.Success

namespace JavaMinus

/-! ### Reports on a program -/

theorem Report.extend_extend (report : Report) (first second : List Diagnostic) :
    (report.extend first).extend second = report.extend (first ++ second) :=
  List.foldl_append.symm

/-- The flag of a report is set exactly if an error is among its diagnostics. -/
theorem Report.hasErrors_ofList (diagnostics : List Diagnostic) :
    (ofList diagnostics).hasErrors = !(ofList diagnostics).errors.isEmpty := by
  rw [errors, toList_ofList, ofList, hasErrors_extend]
  induction diagnostics with
  | nil => rfl
  | cons diagnostic rest inductionHypothesis =>
    cases errs : diagnostic.isError <;> simp_all

namespace Check

/-- On a program with its own table, no check is a fault. -/
theorem exists_run (check : Check) (program : Program) :
    ∃ diagnostics, check.run program (.ofProgram program) = .ok diagnostics := by
  have bodies : ∀ observer, ∃ diagnostics,
      overBodies observer program (.ofProgram program) = .ok diagnostics := by
    intro observer
    rw [overBodies, ClassTable.scopes_ofProgram]
    exact ⟨_, rfl⟩
  cases check with
  | duplicateDeclarations | varargsPlacement => exact ⟨_, rfl⟩
  | undeclaredMethod =>
    rw [run]
    split
    · exact ⟨_, rfl⟩
    · exact bodies _
  | _ => exact bodies _

/-- Checks that all run report what each of them has to say, one after the other. -/
theorem runAll_eq_ofList {checks : List Check} {program : Program} {table : ClassTable}
    {notes : Check → List Diagnostic}
    (ran : ∀ check ∈ checks, check.run program table = .ok (notes check)) :
    runAll checks program table = .ok (.ofList (checks.flatMap notes)) := by
  rw [runAll]
  change _ = Except.ok (Report.empty.extend (checks.flatMap notes))
  generalize Report.empty = before
  induction checks generalizing before with
  | nil => rfl
  | cons check rest inductionHypothesis =>
    obtain ⟨first, others⟩ := List.forall_mem_cons.mp ran
    rw [List.foldlM_cons, first, List.flatMap_cons, ← Report.extend_extend,
      ← inductionHypothesis others]
    rfl

/-- The checks report the list of their diagnostics. -/
theorem exists_runAll (checks : List Check) (program : Program) :
    ∃ diagnostics, runAll checks program (.ofProgram program) = .ok (.ofList diagnostics) := by
  choose notes ran using fun check => exists_run check program
  exact ⟨_, runAll_eq_ofList fun check _ => ran check⟩

end Check

namespace Session

/-! ### The stages from scratch -/

/-- A session on the same program in which nothing was made yet. -/
def forget (session : Session) : Session where
  program := session.program
  table := session.table
  options := session.options

/-- The report of all checks, from scratch. -/
def freshReport (session : Session) : Except BuildError Report :=
  (Check.runAll (Check.standard session.options.thisForbiddenIn) session.program
    session.table).mapError .fault

/-- The code of the class, from scratch. -/
def freshCode (session : Session) : Except BuildError ClassCode :=
  (session.table.lower session.program {}).1.mapError .fault

/-- Whether the program may be assembled, from scratch. -/
def freshAdmission (session : Session) : Except BuildError Unit :=
  if session.options.abortOnErrors then
    session.freshReport.bind fun report =>
      if report.hasErrors then .error (.semantic report.errors) else .ok ()
  else .ok ()

/-- The text of the code of the class, from scratch. -/
def freshListing (session : Session) : Except BuildError String :=
  session.freshCode.bind fun code =>
    (Jasmin.classText session.options.limits code).mapError .fault

/-- The text of the class, from scratch. -/
def freshText (session : Session) : Except BuildError String :=
  session.freshAdmission.bind fun _ => session.freshListing

-- The stages from scratch read no cache.

@[simp] theorem options_forget (session : Session) : session.forget.options = session.options := rfl

@[simp] theorem freshAdmission_forget (session : Session) :
    session.forget.freshAdmission = session.freshAdmission := rfl

@[simp] theorem freshText_forget (session : Session) :
    session.forget.freshText = session.freshText := rfl

/-! ### Coherent caches -/

/-- The caches hold nothing but what the stages make from scratch. -/
structure Coherent (session : Session) : Prop where
  report : ∀ report, session.report? = some report → session.freshReport = .ok report
  code : ∀ code, session.code? = some code → session.freshCode = .ok code
  text : ∀ text, session.text? = some text → session.freshText = .ok text

theorem coherent_forget (session : Session) : session.forget.Coherent where
  report _ kept := nomatch kept
  code _ kept := nomatch kept
  text _ kept := nomatch kept

/-- A request in a session returns a result, and leaves a session on the same program whose caches
are coherent. -/
structure Yields {Result : Type} (session : Session) (step : Result × Session) (result : Result) :
    Prop where
  result : step.1 = result
  sameJob : step.2.forget = session.forget
  coherent : step.2.Coherent

variable {session : Session}

theorem Yields.of_eq {Result : Type} {step : Result × Session} {result outcome : Result}
    {next : Session} (yields : session.Yields step result) (ran : step = (outcome, next)) :
    outcome = result ∧ next.forget = session.forget ∧ next.Coherent := by
  subst ran
  exact ⟨yields.result, yields.sameJob, yields.coherent⟩

theorem Coherent.analyze (coherent : session.Coherent) :
    session.Yields session.analyze session.freshReport := by
  unfold Session.analyze
  split
  next report kept => exact ⟨(coherent.report report kept).symm, rfl, coherent⟩
  next =>
    dsimp only
    split
    next report ran =>
      have made : session.freshReport = .ok report := by rw [freshReport, ran]; rfl
      exact ⟨made.symm, rfl, { coherent with report := fun _ same => Option.some.inj same ▸ made }⟩
    next fault ran =>
      have made : session.freshReport = .error (.fault fault) := by rw [freshReport, ran]; rfl
      exact ⟨made.symm, rfl, coherent⟩

theorem Coherent.lower (coherent : session.Coherent) :
    session.Yields session.lower session.freshCode := by
  unfold Session.lower
  split
  next code kept => exact ⟨(coherent.code code kept).symm, rfl, coherent⟩
  next =>
    split
    next code lowered =>
      have made : session.freshCode = .ok code := by rw [freshCode, lowered]; rfl
      exact ⟨made.symm, rfl, { coherent with code := fun _ same => Option.some.inj same ▸ made }⟩
    next fault lowered =>
      have made : session.freshCode = .error (.fault fault) := by rw [freshCode, lowered]; rfl
      exact ⟨made.symm, rfl, coherent⟩

theorem Coherent.admitted (coherent : session.Coherent) :
    session.Yields session.admitted session.freshAdmission := by
  unfold Session.admitted freshAdmission
  split
  next =>
    split
    next report next ran =>
      obtain ⟨made, sameJob, after⟩ := coherent.analyze.of_eq ran
      rw [← made]
      exact ⟨rfl, sameJob, after⟩
    next error next ran =>
      obtain ⟨made, sameJob, after⟩ := coherent.analyze.of_eq ran
      rw [← made]
      exact ⟨rfl, sameJob, after⟩
  next => exact ⟨rfl, rfl, coherent⟩

/-- An admitted program is assembled from its code. -/
theorem Coherent.textOfCode (coherent : session.Coherent)
    (admitted : session.freshAdmission = .ok ()) :
    session.Yields session.textOfCode session.freshText := by
  have listed : session.freshText = session.freshListing := by rw [freshText, admitted]; rfl
  rw [listed]
  unfold Session.textOfCode freshListing
  split
  next code next ran =>
    obtain ⟨made, sameJob, after⟩ := coherent.lower.of_eq ran
    have sameOptions : next.options = session.options := by simpa using congrArg options sameJob
    have sameText : next.freshText = session.freshText := by simpa using congrArg freshText sameJob
    rw [← made, ← sameOptions]
    dsimp only [Except.bind]
    split
    next text assembled =>
      -- The text is returned ever after without asking for admission, so it must be that of the
      -- whole stage and not just of the code.
      have kept : next.freshText = .ok text := by
        rw [sameText, listed, freshListing, ← made, Except.bind, ← sameOptions, assembled]
        rfl
      rw [assembled]
      exact ⟨rfl, sameJob, { after with text := fun _ same => Option.some.inj same ▸ kept }⟩
    next fault assembled =>
      rw [assembled]
      exact ⟨rfl, sameJob, after⟩
  next error next ran =>
    obtain ⟨made, sameJob, after⟩ := coherent.lower.of_eq ran
    rw [← made]
    exact ⟨rfl, sameJob, after⟩

theorem Coherent.assemble (coherent : session.Coherent) :
    session.Yields session.assemble session.freshText := by
  unfold Session.assemble
  split
  next text kept => exact ⟨(coherent.text text kept).symm, rfl, coherent⟩
  next =>
    split
    next next ran =>
      obtain ⟨made, sameJob, after⟩ := coherent.admitted.of_eq ran
      have sameAdmission : next.freshAdmission = session.freshAdmission := by
        simpa using congrArg freshAdmission sameJob
      have sameText : next.freshText = session.freshText := by
        simpa using congrArg freshText sameJob
      obtain ⟨result, stillSame, final⟩ := after.textOfCode (sameAdmission.trans made.symm)
      exact ⟨result.trans sameText, stillSame.trans sameJob, final⟩
    next error next ran =>
      obtain ⟨made, sameJob, after⟩ := coherent.admitted.of_eq ran
      rw [freshText, ← made]
      exact ⟨rfl, sameJob, after⟩

/-! ### Sequences of requests -/

/-- What can be asked for in a session. -/
inductive Request
  | analyze
  | lower
  | assemble

/-- What a session answers, a failure included. -/
inductive Answer
  | report (result : Except BuildError Report)
  | code (result : Except BuildError ClassCode)
  | text (result : Except BuildError String)

/-- Answer a request. -/
def answer (session : Session) : Request → Answer × Session
  | .analyze => (.report session.analyze.1, session.analyze.2)
  | .lower => (.code session.lower.1, session.lower.2)
  | .assemble => (.text session.assemble.1, session.assemble.2)

/-- The answers to requests that are made one after the other. -/
def answers (session : Session) : List Request → List Answer
  | [] => []
  | request :: rest =>
    (session.answer request).1 :: (session.answer request).2.answers rest

/-- The answer to a request, from scratch. -/
def freshAnswer (session : Session) : Request → Answer
  | .analyze => .report session.freshReport
  | .lower => .code session.freshCode
  | .assemble => .text session.freshText

@[simp] theorem freshAnswer_forget (session : Session) :
    session.forget.freshAnswer = session.freshAnswer := by
  funext request
  cases request <;> rfl

theorem Coherent.answer (coherent : session.Coherent) (request : Request) :
    session.Yields (session.answer request) (session.freshAnswer request) := by
  cases request with
  | analyze =>
    obtain ⟨result, sameJob, after⟩ := coherent.analyze
    exact ⟨congrArg Answer.report result, sameJob, after⟩
  | lower =>
    obtain ⟨result, sameJob, after⟩ := coherent.lower
    exact ⟨congrArg Answer.code result, sameJob, after⟩
  | assemble =>
    obtain ⟨result, sameJob, after⟩ := coherent.assemble
    exact ⟨congrArg Answer.text result, sameJob, after⟩

theorem Coherent.answers (coherent : session.Coherent) (requests : List Request) :
    session.answers requests = requests.map session.freshAnswer := by
  induction requests generalizing session with
  | nil => rfl
  | cons request rest inductionHypothesis =>
    obtain ⟨result, sameJob, after⟩ := coherent.answer request
    have sameAnswers : (session.answer request).2.freshAnswer = session.freshAnswer := by
      simpa using congrArg freshAnswer sameJob
    rw [Session.answers, List.map_cons, result, inductionHypothesis after, sameAnswers]

/-! ### Programs with errors -/

/-- If programs with errors are refused, this is what happens to a program with this report. -/
theorem freshText_of_abort {diagnostics : List Diagnostic}
    (aborts : session.options.abortOnErrors = true)
    (made : session.freshReport = .ok (.ofList diagnostics)) :
    session.freshText =
      if (Report.ofList diagnostics).errors.isEmpty then session.freshListing
      else .error (.semantic (Report.ofList diagnostics).errors) := by
  rw [freshText, freshAdmission, if_pos aborts, made]
  dsimp only [Except.bind]
  rw [Report.hasErrors_ofList]
  cases (Report.ofList diagnostics).errors.isEmpty <;> rfl

/-- What was kept cannot be told from the answers: each of them is the first answer of a new
session. If programs with errors are refused, a program is refused with the errors of its report, in
their order, if there is one, and is assembled as if they were not refused if there is none. -/
theorem answers_start (program : Program) (options : Options) (requests : List Request) :
    (start program options).answers requests =
        requests.map (fun request => ((start program options).answer request).1) ∧
      ∃ report, (start program options).analyze.1 = .ok report ∧
        (start program { options with abortOnErrors := true }).assemble.1 =
          if (report.toList.filter (·.severity == .error)).isEmpty then
            (start program { options with abortOnErrors := false }).assemble.1
          else .error (.semantic (report.toList.filter (·.severity == .error))) := by
  have coherent : ∀ chosen, (start program chosen).Coherent :=
    fun chosen => coherent_forget (start program chosen)
  constructor
  · rw [(coherent options).answers]
    exact List.map_congr_left fun request _ => ((coherent options).answer request).result.symm
  · obtain ⟨diagnostics, ran⟩ :=
      Check.exists_runAll (Check.standard options.thisForbiddenIn) program
    have made : ∀ abort, (start program { options with abortOnErrors := abort }).freshReport =
        .ok (.ofList diagnostics) :=
      fun _ => congrArg (Except.mapError BuildError.fault) ran
    refine ⟨.ofList diagnostics, (coherent options).analyze.result.trans (made _), ?_⟩
    rw [(coherent _).assemble.result, (coherent _).assemble.result]
    exact freshText_of_abort rfl (made true)

end Session

end JavaMinus
