/-
This file says what a report without errors promises about lowering. If no
expression of a program has an unknown type and the standard checks report no
error, then lowering fails only on values that are not there: the name of a
class where a value is computed, or a call that yields nothing. So lowering
succeeds exactly if each expression whose value is computed has one. The checks
do not rule the other case out: a class name may stand as a statement.

A report has no errors only if no check noted one, at any expression or
statement; the checks on assignments and on receivers then leave lowering no
other way to fail.
-/

import JavaMinus.Check.Suite
import JavaMinus.Proofs.Lowering.Values

namespace JavaMinus

/-! ### From node to node -/

namespace Observer

variable {Note Other : Type}

/-- If all notes of the one observer on a node are of some kind, then so are those of the other. -/
structure Implies (first : Observer Note) (each : Note → Prop) (second : Observer Other)
    (every : Other → Prop) : Prop where
  stmt : ∀ stmt, (∀ note ∈ first.stmt stmt, each note) → ∀ note ∈ second.stmt stmt, every note
  condition : ∀ expr, (∀ note ∈ first.condition expr, each note) →
    ∀ note ∈ second.condition expr, every note
  expr : ∀ expr, (∀ note ∈ first.expr expr, each note) → ∀ note ∈ second.expr expr, every note

namespace Implies

variable {first : Observer Note} {each : Note → Prop} {second : Observer Other}
  {every : Other → Prop}

theorem onExpr (implies : first.Implies each second every) {expr : Expr}
    (all : ∀ note ∈ first.onExpr expr, each note) : ∀ note ∈ second.onExpr expr, every note := by
  induction expr with
  | literal | name | this | newObject =>
    simp only [Observer.onExpr, List.append_nil] at all ⊢
    exact implies.expr _ all
  | binary pos op left right leftHypothesis rightHypothesis
  | index pos left right leftHypothesis rightHypothesis =>
    simp only [Observer.onExpr, List.forall_mem_append] at all ⊢
    exact ⟨implies.expr _ all.1, leftHypothesis all.2.1, rightHypothesis all.2.2⟩
  | not pos inner inductionHypothesis | newArray pos inner inductionHypothesis
  | length pos inner inductionHypothesis | paren pos inner inductionHypothesis =>
    simp only [Observer.onExpr, List.forall_mem_append] at all ⊢
    exact ⟨implies.expr _ all.1, inductionHypothesis all.2⟩
  | call pos receiver method args receiverHypothesis argsHypothesis =>
    rw [forall_onExpr_call] at all ⊢
    exact ⟨implies.expr _ all.1,
      fun expr isReceiver => receiverHypothesis expr isReceiver (all.2.1 expr isReceiver),
      fun arg member => argsHypothesis arg member (all.2.2 arg member)⟩
  | arrayLiteral pos elements inductionHypothesis =>
    rw [Observer.onExpr, List.forall_mem_append, forall_onExprs] at all ⊢
    exact ⟨implies.expr _ all.1,
      fun element member => inductionHypothesis element member (all.2 element member)⟩

theorem onCondition (implies : first.Implies each second every) {condition : Expr}
    (all : ∀ note ∈ first.onCondition condition, each note) :
    ∀ note ∈ second.onCondition condition, every note := by
  rw [Observer.onCondition, List.forall_mem_append] at all ⊢
  exact ⟨implies.condition _ all.1, implies.onExpr all.2⟩

theorem onStmt (implies : first.Implies each second every) {stmt : Stmt}
    (all : ∀ note ∈ first.onStmt stmt, each note) : ∀ note ∈ second.onStmt stmt, every note := by
  induction stmt with
  | block pos body inductionHypothesis =>
    rw [Observer.onStmt, List.forall_mem_append, forall_onBody] at all ⊢
    exact ⟨implies.stmt _ all.1,
      fun stmt member => inductionHypothesis stmt member (all.2 stmt member)⟩
  | ifElse pos condition thenBranch elseBranch thenHypothesis elseHypothesis =>
    cases elseBranch with
    | none =>
      simp only [Observer.onStmt, List.forall_mem_append] at all ⊢
      exact ⟨implies.stmt _ all.1, implies.onCondition all.2.1, thenHypothesis all.2.2⟩
    | some other =>
      simp only [Observer.onStmt, List.forall_mem_append] at all ⊢
      exact ⟨implies.stmt _ all.1, ⟨implies.onCondition all.2.1.1, thenHypothesis all.2.1.2⟩,
        elseHypothesis other rfl all.2.2⟩
  | whileLoop pos condition body inductionHypothesis =>
    simp only [Observer.onStmt, List.forall_mem_append] at all ⊢
    exact ⟨implies.stmt _ all.1, implies.onCondition all.2.1, inductionHypothesis all.2.2⟩
  | eval pos expr =>
    rw [Observer.onStmt, List.forall_mem_append] at all ⊢
    exact ⟨implies.stmt _ all.1, implies.onExpr all.2⟩
  | assign pos target value =>
    simp only [Observer.onStmt, List.forall_mem_append] at all ⊢
    exact ⟨implies.stmt _ all.1, implies.onExpr all.2.1, implies.onExpr all.2.2⟩
  | ret pos value =>
    cases value with
    | none =>
      simp only [Observer.onStmt, List.append_nil] at all ⊢
      exact implies.stmt _ all
    | some expr =>
      rw [Observer.onStmt, List.forall_mem_append] at all ⊢
      exact ⟨implies.stmt _ all.1, implies.onExpr all.2⟩

theorem onBody (implies : first.Implies each second every) {body : List Stmt}
    (all : ∀ note ∈ first.onBody body, each note) : ∀ note ∈ second.onBody body, every note := by
  rw [forall_onBody] at all ⊢
  exact fun stmt member => implies.onStmt (all stmt member)

end Implies

end Observer

namespace Check

open Observer

/-! ### What the checks rule out -/

/-- Where assignments are in order, they go to elements and to variables. -/
theorem assignments_imply (scope : Scope) :
    (assignments scope).Implies (fun note => note.isError = false) everyStmt
      (fun stmt => scope.assigns stmt = true) where
  stmt stmt clean := by
    rw [everyStmt, List.forall_mem_singleton]
    cases stmt with
    | assign pos target value =>
      rw [Scope.assigns, Scope.isPlace]
      simp only [assignments, storedMisfits, assignmentMisfits] at clean
      split
      · next namePos name named =>
        simp only [named] at clean
        cases found : scope.lookup? name with
        | some _ => rfl
        | none =>
          simp only [found] at clean
          cases isClass : scope.table.isKnownClass name with
          | false => rfl
          | true =>
            rw [isClass, if_pos rfl, List.forall_mem_singleton] at clean
            cases clean
      · rfl
      · next notName notIndex =>
        split at clean
        · exact absurd ‹_› (notName _ _)
        · exact absurd ‹_› (notIndex _ _ _)
        · rw [List.forall_mem_singleton] at clean
          cases clean
    | _ => rfl
  condition _ _ := nofun
  expr _ _ := nofun

/-- A static method refuses `this`, as the entry method or for itself. -/
theorem refusal?_of_isStatic (entry : Option String) {scope : Scope}
    (isStatic : scope.method.isStatic = true) : ∃ refusal, refusal? entry scope = some refusal := by
  rw [refusal?, isStatic]
  split <;> exact ⟨_, rfl⟩

/-- Where receivers are in order, calls reach their methods. -/
theorem receivers_imply (entry : Option String) (scope : Scope) :
    (receivers entry scope).Implies (fun note => note.isError = false) everyExpr
      (fun expr => ∀ pos receiver method args, expr = .call pos receiver method args →
        scope.reaches receiver method = true) where
  stmt _ _ := nofun
  condition _ _ := nofun
  expr expr clean := by
    rw [everyExpr, List.forall_mem_singleton]
    rintro pos receiver method args rfl
    cases receiver with
    | some _ => rfl
    | none =>
      cases isStatic : scope.method.isStatic with
      | false => rw [Scope.reaches, isStatic]; rfl
      | true =>
        obtain ⟨refusal, refused⟩ := refusal?_of_isStatic entry isStatic
        simp only [receivers, refused, receiverMisuse, isStatic, Bool.true_and] at clean
        split at clean
        · rw [List.forall_mem_singleton] at clean
          cases clean
        · next allStatic =>
          rw [Scope.reaches, isStatic]
          cases found : scope.table.method? method with
          | none => rfl
          | some callee => simpa [found] using allStatic

/-! ### Reports without errors -/

/-- A report without errors comes from checks that noted none. -/
theorem run_of_runAll {checks : List Check} {program : Program} {table : ClassTable}
    {start report : Report}
    (ran : checks.foldlM (fun report check => return report.extend (← check.run program table))
      start = Except.ok report) (clean : report.hasErrors = false) :
    start.hasErrors = false ∧ ∀ check ∈ checks, ∃ notes, check.run program table = .ok notes ∧
      ∀ note ∈ notes, note.isError = false := by
  induction checks generalizing start with
  | nil =>
    obtain rfl := Except.ok.inj ran
    exact ⟨clean, nofun⟩
  | cons check rest inductionHypothesis =>
    rw [List.foldlM_cons] at ran
    cases noted : check.run program table with
    | error fault =>
      rw [noted] at ran
      cases ran
    | ok notes =>
      rw [noted] at ran
      obtain ⟨extended, others⟩ := inductionHypothesis ran
      rw [Report.hasErrors_extend, Bool.or_eq_false_iff, List.any_eq_false] at extended
      refine ⟨extended.1, List.forall_mem_cons.mpr ⟨⟨notes, noted, fun note member => ?_⟩, others⟩⟩
      exact Bool.eq_false_iff.mpr (extended.2 note member)

/-- A check over bodies notes what it notes on each body, in the scope of its method. -/
theorem forall_overBodies_scopes {observer : Scope → Observer Diagnostic} {program : Program}
    {table : ClassTable} {notes : List Diagnostic} {each : Diagnostic → Prop}
    (noted : overBodies observer program table = .ok notes) (all : ∀ note ∈ notes, each note) :
    ∃ decls, table.scopes program = .ok decls ∧
      ∀ decl ∈ decls, ∀ note ∈ (observer decl.2).onBody decl.1.body, each note := by
  rw [overBodies] at noted
  cases paired : table.scopes program with
  | error fault =>
    rw [paired] at noted
    cases noted
  | ok decls =>
    rw [paired] at noted
    obtain rfl := Except.ok.inj noted
    exact ⟨decls, rfl, List.forall_mem_flatMap.mp all⟩

/-- If the table is that of the program, these are the scopes of its own declarations. -/
theorem forall_overBodies {observer : Scope → Observer Diagnostic} {program : Program}
    {notes : List Diagnostic} {each : Diagnostic → Prop}
    (noted : overBodies observer program (.ofProgram program) = .ok notes)
    (all : ∀ note ∈ notes, each note) :
    ∀ decl ∈ program.classDecl.methods,
      ∀ note ∈ (observer ⟨.ofProgram program, .ofDecl decl⟩).onBody decl.body, each note := by
  obtain ⟨decls, paired, each⟩ := forall_overBodies_scopes noted all
  rw [ClassTable.scopes_ofProgram] at paired
  obtain rfl := Except.ok.inj paired
  exact List.forall_mem_map.mp each

end Check

namespace ClassTable

open Observer

/-- What a check over bodies notes on the body that a method is lowered from. -/
theorem compiles_of_overBodies {observer : Scope → Observer Diagnostic} {program : Program}
    {table : ClassTable} {notes : List Diagnostic} {each : Diagnostic → Prop} {before : Counters}
    {code : ClassCode} (noted : Check.overBodies observer program table = .ok notes)
    (all : ∀ note ∈ notes, each note) (lowered : (table.lower program before).1 = .ok code)
    {method : MethodCode} (member : method ∈ code.methods) :
    ∃ scope body, Scope.Compiles scope body method ∧
      ∀ note ∈ (observer scope).onBody body, each note := by
  obtain ⟨decls, paired, eachNote⟩ := Check.forall_overBodies_scopes noted all
  obtain ⟨-, _, paired', compiled⟩ := compiles_of_lower lowered
  obtain rfl := Except.ok.inj (paired.symm.trans paired')
  obtain ⟨sameLength, compiles⟩ := List.forall₂_iff_get.mp compiled
  obtain ⟨position, inRange, rfl⟩ := List.mem_iff_getElem.mp member
  exact ⟨_, _, (compiles position (sameLength ▸ inRange) inRange).2,
    eachNote _ (List.getElem_mem _)⟩

/-- If no expression has an unknown type and the standard checks report no error, a program is
lowered exactly if each expression whose value is computed has one: a name stands for a variable, a
call yields something. -/
theorem lower_succeeds_iff_of_clean {program : Program} {entry : Option String} {report : Report}
    (known : ∀ decl ∈ program.classDecl.methods, ∀ expr ∈ everyExpr.onBody decl.body,
      Scope.typeOf ⟨ofProgram program, .ofDecl decl⟩ expr ≠ .unknown)
    (ran : Check.runAll (Check.standard entry) program (ofProgram program) = .ok report)
    (clean : report.hasErrors = false) (counters : Counters) :
    (∃ code, ((ofProgram program).lower program counters).1 = .ok code) ↔
      ∀ decl ∈ program.classDecl.methods, ∀ expr ∈ Stmt.computedBody decl.body,
        Scope.hasValue ⟨ofProgram program, .ofDecl decl⟩ expr = true := by
  obtain ⟨-, noErrors⟩ := Check.run_of_runAll ran clean
  obtain ⟨stored, storedRan, storedClean⟩ :=
    noErrors .assignmentCompatibility (by simp [Check.standard])
  obtain ⟨received, receivedRan, receivedClean⟩ :=
    noErrors (.thisUsage entry) (by simp [Check.standard])
  have assigned := Check.forall_overBodies storedRan storedClean
  have reached := Check.forall_overBodies receivedRan receivedClean
  refine lower_succeeds_iff_of_allowed (fun decl member expr inBody => ?_) (fun decl member => ?_)
    counters
  · exact ⟨known decl member expr inBody,
      (Check.receivers_imply entry _).onBody (reached decl member) expr inBody⟩
  · exact (Check.assignments_imply _).onBody (assigned decl member)

end ClassTable

/-- A class `A` with a method `f` that has this body. -/
def Program.ofBody (body : List Stmt) : Program where
  imports := []
  classDecl :=
    { name := "A"
      superClass := none
      fields := []
      methods :=
        [{ name := "f"
           isPublic := true
           isStatic := false
           returnType := .ofTy .nowhere .void
           params := []
           locals := []
           body := body
           pos := .nowhere }]
      pos := .nowhere }
  pos := .nowhere

/-- The method is called on the class, and an array is made as long as another one. -/
def Program.busy : Program :=
  .ofBody
    [.eval .nowhere (.call .nowhere (some (.name .nowhere "A")) "f" []),
      .eval .nowhere (.newArray .nowhere (.length .nowhere
        (.arrayLiteral .nowhere [.literal .nowhere (.int 1), .literal .nowhere (.int 2)])))]

theorem lower_succeeds_iff_of_clean_busy :
    Check.runAll (Check.standard none) .busy (.ofProgram .busy) = .ok .empty ∧
      ∃ code, ((ClassTable.ofProgram .busy).lower .busy {}).1 = .ok code := by
  have known : ∀ decl ∈ Program.busy.classDecl.methods,
      ∀ expr ∈ Observer.everyExpr.onBody decl.body,
      Scope.typeOf ⟨.ofProgram .busy, .ofDecl decl⟩ expr ≠ .unknown := by
    decide +kernel
  have ran : Check.runAll (Check.standard none) .busy (.ofProgram .busy) = .ok .empty := rfl
  exact ⟨ran, (ClassTable.lower_succeeds_iff_of_clean known ran rfl {}).mpr (by decide +kernel)⟩

/-- A method whose only statement is the name of its class. -/
def Program.idle : Program := .ofBody [.eval .nowhere (.name .nowhere "A")]

/-- That the standard checks report no error does not guarantee that lowering succeeds. -/
theorem clean_not_lowered :
    ¬∀ (program : Program) (entry : Option String) (report : Report),
      (∀ decl ∈ program.classDecl.methods, ∀ expr ∈ Observer.everyExpr.onBody decl.body,
        Scope.typeOf ⟨.ofProgram program, .ofDecl decl⟩ expr ≠ .unknown) →
      Check.runAll (Check.standard entry) program (.ofProgram program) = .ok report →
      report.hasErrors = false →
      ∃ code, ((ClassTable.ofProgram program).lower program {}).1 = .ok code := by
  intro guarantees
  have known : ∀ decl ∈ Program.idle.classDecl.methods,
      ∀ expr ∈ Observer.everyExpr.onBody decl.body,
      Scope.typeOf ⟨.ofProgram .idle, .ofDecl decl⟩ expr ≠ .unknown := by
    decide +kernel
  obtain ⟨code, lowered⟩ := guarantees .idle (some "main") .empty known rfl rfl
  cases lowered

end JavaMinus
