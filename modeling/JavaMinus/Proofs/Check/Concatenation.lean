/-
This file says what a list of checks does, in whatever order, with repetitions, and
with a class table that need not be that of the program. A check on bodies pairs the
methods with the signatures of the table by their positions, before it looks at any
body, so it is a fault if the table is too short, and then it is always the same one:
the first method without a signature. The other checks never fail. If none of the
checks fails, the report is what each of them reports alone, one after the other, and
its flag says whether there is an error in it.
-/

import JavaMinus.Proofs.Build.Caches
import JavaMinus.Proofs.Check.Coverage

namespace JavaMinus

/-! ### Methods and signatures -/

namespace ClassTable

/-- Methods and signatures are paired by their positions. If there are more methods than
signatures, the first method that is left over is at fault. -/
theorem pair_eq (table : ClassTable) (decls : List MethodDecl) (signatures : List Signature) :
    table.pair decls signatures =
      match decls[signatures.length]? with
      | some decl => .error (.noSignature decl.name)
      | none => .ok ((decls.zip signatures).map fun paired => (paired.1, ⟨table, paired.2⟩)) := by
  induction decls generalizing signatures with
  | nil => rfl
  | cons decl rest inductionHypothesis =>
    cases signatures with
    | nil => rfl
    | cons signature others =>
      rw [pair, inductionHypothesis, List.length_cons, List.getElem?_cons_succ]
      cases rest[others.length]? <;> rfl

end ClassTable

/-- The flag of a report is set exactly if it lists an error. -/
theorem Report.hasErrors_ofList_iff (diagnostics : List Diagnostic) :
    (ofList diagnostics).hasErrors = true ↔
      ∃ note ∈ (ofList diagnostics).toList, note.severity = .error := by
  rw [toList_ofList, ofList, hasErrors_extend]
  simp [Report.empty, Diagnostic.isError]

namespace Check

/-! ### One check -/

variable {program : Program} {table : ClassTable}

/-- A check on bodies runs if there is a signature for every method. -/
theorem exists_overBodies_iff {observer : Scope → Observer Diagnostic} :
    (∃ notes, overBodies observer program table = .ok notes) ↔
      program.classDecl.methods.length ≤ table.methods.length := by
  rw [overBodies, ClassTable.scopes, ClassTable.pair_eq, ← List.getElem?_eq_none_iff]
  cases program.classDecl.methods[table.methods.length]? with
  | none => exact iff_of_true ⟨_, rfl⟩ rfl
  | some decl =>
    refine iff_of_false ?_ (Option.some_ne_none decl)
    rintro ⟨notes, ran⟩
    cases ran

/-- If it does not run, the first method without a signature is at fault. -/
theorem fault_of_overBodies {observer : Scope → Observer Diagnostic} {fault : Fault}
    (failed : overBodies observer program table = .error fault) :
    ∃ decl, program.classDecl.methods[table.methods.length]? = some decl ∧
      fault = .noSignature decl.name := by
  rw [overBodies, ClassTable.scopes, ClassTable.pair_eq] at failed
  cases leftOver : program.classDecl.methods[table.methods.length]? with
  | none =>
    rw [leftOver] at failed
    cases failed
  | some decl =>
    rw [leftOver] at failed
    exact ⟨decl, rfl, (Except.error.inj failed).symm⟩

/-- A check that does not look at bodies always runs. -/
theorem exists_run_of_not_readsBodies {check : Check} (blind : check.readsBodies table = false) :
    ∃ notes, check.run program table = .ok notes := by
  cases check with
  | duplicateDeclarations | varargsPlacement => exact ⟨_, rfl⟩
  | undeclaredMethod =>
    rw [readsBodies, Option.isNone_eq_false_iff] at blind
    rw [run, if_pos blind]
    exact ⟨_, rfl⟩
  | _ => cases blind

theorem exists_run_iff {check : Check} :
    (∃ notes, check.run program table = .ok notes) ↔
      program.classDecl.methods.length ≤ table.methods.length ∨
        check.readsBodies table = false := by
  cases reads : check.readsBodies table with
  | true =>
    rw [run_eq_overBodies reads, exists_overBodies_iff]
    exact (or_iff_left nofun).symm
  | false => exact iff_of_true (exists_run_of_not_readsBodies reads) (.inr rfl)

theorem fault_of_run {check : Check} {fault : Fault}
    (failed : check.run program table = .error fault) :
    ∃ decl, program.classDecl.methods[table.methods.length]? = some decl ∧
      fault = .noSignature decl.name := by
  cases reads : check.readsBodies table with
  | true =>
    rw [run_eq_overBodies reads] at failed
    exact fault_of_overBodies failed
  | false =>
    obtain ⟨notes, ran⟩ : ∃ notes, check.run program table = .ok notes :=
      exists_run_of_not_readsBodies reads
    rw [ran] at failed
    cases failed

/-! ### Checks one after the other -/

/-- Whatever was reported before, checks run one after the other up to the first that fails. -/
theorem runs_or_fails (program : Program) (table : ClassTable) (checks : List Check)
    (start : Report) :
    ((∀ check ∈ checks, ∃ notes, check.run program table = .ok notes) ∧
      ∃ report, checks.foldlM (fun report check => return report.extend (← check.run program table))
        start = Except.ok report) ∨
    ∃ check ∈ checks, ∃ fault, check.run program table = .error fault ∧
      checks.foldlM (fun report check => return report.extend (← check.run program table))
        start = Except.error fault := by
  induction checks generalizing start with
  | nil => exact .inl ⟨List.forall_mem_nil _, start, rfl⟩
  | cons check rest inductionHypothesis =>
    rw [List.foldlM_cons]
    cases ran : check.run program table with
    | error fault => exact .inr ⟨check, List.mem_cons_self, fault, ran, rfl⟩
    | ok notes =>
      rcases inductionHypothesis (start.extend notes) with
        ⟨each, report, all⟩ | ⟨other, member, fault, failed, stopped⟩
      · exact .inl ⟨List.forall_mem_cons.mpr ⟨⟨notes, ran⟩, each⟩, report, all⟩
      · exact .inr ⟨other, List.mem_cons_of_mem _ member, fault, failed, stopped⟩

theorem exists_runAll_iff {checks : List Check} :
    (∃ report, runAll checks program table = .ok report) ↔
      ∀ check ∈ checks, ∃ notes, check.run program table = .ok notes := by
  rcases runs_or_fails program table checks .empty with
    ⟨each, all⟩ | ⟨check, member, fault, failed, stopped⟩
  · exact iff_of_true all each
  · refine iff_of_false ?_ fun each => ?_
    · rintro ⟨report, ran⟩
      cases stopped.symm.trans ran
    · obtain ⟨notes, ran⟩ := each check member
      cases failed.symm.trans ran

theorem fault_of_runAll {checks : List Check} {fault : Fault}
    (failed : runAll checks program table = .error fault) :
    ∃ decl, program.classDecl.methods[table.methods.length]? = some decl ∧
      fault = .noSignature decl.name := by
  rcases runs_or_fails program table checks .empty with
    ⟨-, report, all⟩ | ⟨check, -, other, checkFailed, stopped⟩
  · cases all.symm.trans failed
  · obtain rfl := Except.error.inj (stopped.symm.trans failed)
    exact fault_of_run checkFailed

/-- Checks in any order, repeated or not, report on a program by any class table if the table has a
signature for every method or if none of them looks at bodies. They report what each of them reports
alone, one after the other, and the flag of the report is set exactly if there is an error in it. If
they fail, the first method without a signature is at fault. -/
theorem runAll_concatenates (checks : List Check) (program : Program) (table : ClassTable) :
    ((∃ report, runAll checks program table = .ok report) ↔
      program.classDecl.methods.length ≤ table.methods.length ∨
        ∀ check ∈ checks, check.readsBodies table = false) ∧
    (∀ report, runAll checks program table = .ok report →
      (∃ alone : Check → Report,
        (∀ check ∈ checks, runAll [check] program table = .ok (alone check)) ∧
        report.toList = checks.flatMap fun check => (alone check).toList) ∧
      (report.hasErrors = true ↔ ∃ note ∈ report.toList, note.severity = .error)) ∧
    ∀ fault, runAll checks program table = .error fault →
      ∃ decl, program.classDecl.methods[table.methods.length]? = some decl ∧
        fault = .noSignature decl.name ∧ fault.kind = .missingContext ∧
        fault.message = s!"missing context: symbol table entry for method '{decl.name}'" := by
  refine ⟨?_, fun report ran => ?_, fun fault failed => ?_⟩
  · rw [exists_runAll_iff]
    simp only [exists_run_iff]
    grind
  · choose! notes each using exists_runAll_iff.mp ⟨report, ran⟩
    obtain rfl := Except.ok.inj (ran.symm.trans (runAll_eq_ofList each))
    refine ⟨⟨fun check => .ofList (notes check), fun check member => ?_, ?_⟩,
      Report.hasErrors_ofList_iff _⟩
    · rw [runAll_eq_ofList (List.forall_mem_singleton.mpr (each check member)),
        List.flatMap_singleton]
    · simp only [Report.toList_ofList]
  · obtain ⟨decl, leftOver, rfl⟩ := fault_of_runAll failed
    exact ⟨decl, leftOver, rfl, rfl, rfl⟩

end Check

/-- The table of a class that inherits everything. -/
def ClassTable.heir : ClassTable where
  className := "Heir"
  superClass := some "Base"
  imports := []
  fields := []
  methods := []

open Check in
/-- By the table of a class without methods, checks on declarations report, and so does the check on
called methods, since any method may be inherited; but the names in a body cannot be looked up. By
its own table a program with undeclared names gets the same errors from each run of the check. -/
theorem runAll_concatenates_heir :
    (∃ report, runAll [.undeclaredMethod, .varargsPlacement] .astray .heir = .ok report) ∧
    (∃ decl ∈ Program.astray.classDecl.methods,
      runAll [.varargsPlacement, .undeclaredVariable] .astray .heir =
        .error (.noSignature decl.name)) ∧
    ∃ report alone,
      runAll [.undeclaredVariable, .undeclaredMethod, .undeclaredVariable] .astray
        (.ofProgram .astray) = .ok report ∧
      runAll [.undeclaredVariable] .astray (.ofProgram .astray) = .ok alone ∧
      report.toList = alone.toList ++ alone.toList ∧
      ∃ note ∈ report.toList, note.severity = .error := by
  refine ⟨(runAll_concatenates _ _ _).1.mpr (.inr (by decide)), ?_, ?_⟩
  · have failed : runAll [.varargsPlacement, .undeclaredVariable] .astray .heir =
        .error (.noSignature "f") := rfl
    obtain ⟨decl, leftOver, same, -⟩ := (runAll_concatenates _ _ _).2.2 _ failed
    exact ⟨decl, List.mem_of_getElem? leftOver, failed.trans (congrArg Except.error same)⟩
  · obtain ⟨report, ran, flagged⟩ : ∃ report,
        runAll [.undeclaredVariable, .undeclaredMethod, .undeclaredVariable] .astray
          (.ofProgram .astray) = .ok report ∧ report.hasErrors = true := ⟨_, rfl, rfl⟩
    obtain ⟨⟨alone, each, listed⟩, flag⟩ := (runAll_concatenates _ _ _).2.1 report ran
    have silent : alone .undeclaredMethod = .empty :=
      (Except.ok.inj (each .undeclaredMethod (by decide))).symm
    refine ⟨report, alone .undeclaredVariable, ran, each _ List.mem_cons_self, ?_,
      flag.mp flagged⟩
    simpa [silent] using listed

end JavaMinus
