/-
This file shows that redundant parentheses do not matter. A program without its
parentheses has the same class table, is lowered to the same code or fails with a
fault of the same kind, and gets from the checks as many diagnostics, of the same
severities and in the same order. Only texts and positions may differ, for they
show an expression as it was written.

Parentheses are taken off everywhere at once, also deep inside an expression,
while the compiler looks through them one place at a time. That the two agree at
one expression follows from their agreeing at its parts.
-/

import JavaMinus.Proofs.Build.Caches
import JavaMinus.Proofs.Check.Coverage

namespace JavaMinus

/-! ### Taking off the parentheses -/

namespace Expr

mutual

/-- The expression with every pair of parentheses replaced by what is inside. -/
def unwrapped (expr : Expr) : Expr :=
  match expr with
  | .literal pos value => .literal pos value
  | .name pos text => .name pos text
  | .this pos => .this pos
  | .binary pos op left right => .binary pos op left.unwrapped right.unwrapped
  | .not pos operand => .not pos operand.unwrapped
  | .call pos none method args => .call pos none method (unwrappedAll args)
  | .call pos (some receiver) method args =>
    .call pos (some receiver.unwrapped) method (unwrappedAll args)
  | .newObject pos className => .newObject pos className
  | .newArray pos size => .newArray pos size.unwrapped
  | .index pos array position => .index pos array.unwrapped position.unwrapped
  | .length pos array => .length pos array.unwrapped
  | .arrayLiteral pos elements => .arrayLiteral pos (unwrappedAll elements)
  | .paren _ inner => inner.unwrapped
termination_by structural expr

/-- Each of some expressions without its parentheses. -/
def unwrappedAll (exprs : List Expr) : List Expr :=
  match exprs with
  | [] => []
  | expr :: rest => expr.unwrapped :: unwrappedAll rest
termination_by structural exprs

end

theorem unwrappedAll_eq_map (exprs : List Expr) : unwrappedAll exprs = exprs.map unwrapped := by
  induction exprs with
  | nil => rfl
  | cons expr rest inductionHypothesis => rw [unwrappedAll, inductionHypothesis, List.map_cons]

theorem unwrapped_call (pos : Pos) (receiver : Option Expr) (method : String)
    (args : List Expr) :
    (call pos receiver method args).unwrapped =
      call pos (receiver.map unwrapped) method (args.map unwrapped) := by
  cases receiver <;> rw [unwrapped, unwrappedAll_eq_map] <;> rfl

theorem unwrapped_arrayLiteral (pos : Pos) (elements : List Expr) :
    (arrayLiteral pos elements).unwrapped = arrayLiteral pos (elements.map unwrapped) := by
  rw [unwrapped, unwrappedAll_eq_map]

theorem unwrapped_stripped (expr : Expr) : expr.stripped.unwrapped = expr.unwrapped := by
  induction expr with
  | paren pos inner inductionHypothesis => rw [stripped_paren, inductionHypothesis, unwrapped]
  | _ => rfl

theorem stripped_unwrapped (expr : Expr) : expr.unwrapped.stripped = expr.unwrapped := by
  induction expr with
  | paren pos inner inductionHypothesis => rw [unwrapped, inductionHypothesis]
  | call pos receiver method args =>
    rw [unwrapped_call]
    rfl
  | _ => rfl

/-- It makes no difference whether the outer parentheses are looked through before or after. -/
theorem stripped_unwrapped_comm (expr : Expr) :
    expr.unwrapped.stripped = expr.stripped.unwrapped := by
  rw [stripped_unwrapped, unwrapped_stripped]

theorem isThis_unwrapped (expr : Expr) : expr.unwrapped.isThis = expr.isThis := by
  rw [isThis, isThis, stripped_unwrapped_comm]
  cases inside : expr.stripped with
  | paren pos inner => exact absurd inside (expr.stripped_ne_paren pos inner)
  | call pos receiver method args => rw [unwrapped_call]
  | _ => rfl

end Expr

namespace Stmt

mutual

/-- The statement with every pair of parentheses replaced by what is inside. -/
def unwrapped (stmt : Stmt) : Stmt :=
  match stmt with
  | .block pos body => .block pos (unwrappedBody body)
  | .ifElse pos condition thenBranch none =>
    .ifElse pos condition.unwrapped thenBranch.unwrapped none
  | .ifElse pos condition thenBranch (some elseBranch) =>
    .ifElse pos condition.unwrapped thenBranch.unwrapped (some elseBranch.unwrapped)
  | .whileLoop pos condition body => .whileLoop pos condition.unwrapped body.unwrapped
  | .eval pos expr => .eval pos expr.unwrapped
  | .assign pos target value => .assign pos target.unwrapped value.unwrapped
  | .ret pos value => .ret pos (value.map Expr.unwrapped)
termination_by structural stmt

/-- Each of some statements without its parentheses. -/
def unwrappedBody (body : List Stmt) : List Stmt :=
  match body with
  | [] => []
  | stmt :: rest => stmt.unwrapped :: unwrappedBody rest
termination_by structural body

end

theorem unwrappedBody_eq_map (body : List Stmt) : unwrappedBody body = body.map unwrapped := by
  induction body with
  | nil => rfl
  | cons stmt rest inductionHypothesis => rw [unwrappedBody, inductionHypothesis, List.map_cons]

theorem unwrapped_ifElse (pos : Pos) (condition : Expr) (thenBranch : Stmt)
    (elseBranch : Option Stmt) :
    (ifElse pos condition thenBranch elseBranch).unwrapped =
      ifElse pos condition.unwrapped thenBranch.unwrapped (elseBranch.map unwrapped) := by
  cases elseBranch <;> rfl

end Stmt

/-- The method without parentheses in its body. -/
def MethodDecl.unwrapped (decl : MethodDecl) : MethodDecl :=
  { decl with body := Stmt.unwrappedBody decl.body }

/-- The program without parentheses. -/
def Program.unwrapped (program : Program) : Program :=
  { program with
    classDecl :=
      { program.classDecl with
        methods := program.classDecl.methods.map MethodDecl.unwrapped } }

/-- The class table knows no bodies. -/
theorem ClassTable.ofProgram_unwrapped (program : Program) :
    ofProgram program.unwrapped = ofProgram program := by
  simp only [ofProgram, Program.unwrapped, List.map_map]
  rfl

/-! ### Types -/

namespace Scope

theorem isOwn_unwrapped (scope : Scope) (receiver : Expr) (ty : Ty) :
    scope.isOwn receiver.unwrapped ty = scope.isOwn receiver ty := by
  rw [isOwn, isOwn, Expr.isThis_unwrapped]

theorem typeOf_unwrapped (scope : Scope) (expr : Expr) :
    scope.typeOf expr.unwrapped = scope.typeOf expr := by
  induction expr with
  | paren pos inner inductionHypothesis => rw [Expr.unwrapped, inductionHypothesis, typeOf]
  | call pos receiver method args receiverHypothesis =>
    rw [Expr.unwrapped_call]
    cases receiver with
    | none => rfl
    | some receiver =>
      rw [Option.map_some, typeOf, typeOf, receiverHypothesis receiver rfl, isOwn_unwrapped]
  | _ => rfl

theorem callee?_unwrapped (scope : Scope) (receiver : Option Expr) (method : String) :
    scope.callee? (receiver.map Expr.unwrapped) method = scope.callee? receiver method := by
  cases receiver with
  | none => rfl
  | some receiver =>
    rw [Option.map_some, callee?, callee?, typeOf_unwrapped, isOwn_unwrapped]

/-! ### Lowering -/

theorem explicitTarget_unwrapped (scope : Scope) (receiver : Expr) (emission : Emission) :
    Emission.explicitTarget scope receiver.unwrapped emission =
      Emission.explicitTarget scope receiver emission := by
  rw [Emission.explicitTarget, Emission.explicitTarget, Expr.stripped_unwrapped_comm]
  cases inside : receiver.stripped with
  | paren pos inner => exact absurd inside (receiver.stripped_ne_paren pos inner)
  | call pos receiver method args => rw [Expr.unwrapped_call]
  | _ => rfl

/-- Calls are lowered alike if their receivers and arguments are. -/
theorem invocation_unwrapped_of {scope : Scope} {receiver : Option Expr} {args : List Expr}
    (receiverAlike : ∀ expr, receiver = some expr →
      scope.emission expr.unwrapped = scope.emission expr)
    (argsAlike : ∀ arg ∈ args, scope.emission arg.unwrapped = scope.emission arg)
    (method : String) :
    scope.invocation (receiver.map Expr.unwrapped) method (args.map Expr.unwrapped) =
      scope.invocation receiver method args := by
  have target : scope.target (receiver.map Expr.unwrapped) method =
      scope.target receiver method := by
    cases receiver with
    | none => rfl
    | some expr =>
      rw [Option.map_some, Scope.target, Scope.target, explicitTarget_unwrapped,
        receiverAlike expr rfl]
  have arguments : scope.arguments (args.map Expr.unwrapped) = scope.arguments args := by
    rw [arguments_eq_map, arguments_eq_map, List.map_map]
    refine List.map_congr_left fun arg member => ?_
    rw [Function.comp_apply, typeOf_unwrapped, argsAlike arg member]
  rw [invocation, invocation, target, arguments, callee?_unwrapped]

/-- An expression is lowered in the same way without its parentheses, faults included. -/
theorem emission_unwrapped (scope : Scope) (expr : Expr) :
    scope.emission expr.unwrapped = scope.emission expr := by
  induction expr with
  | literal | name | this | newObject => rfl
  | binary pos op left right leftAlike rightAlike =>
    rw [Expr.unwrapped, emission, emission, leftAlike, rightAlike]
  | not pos inner innerAlike | newArray pos inner innerAlike | length pos inner innerAlike =>
    rw [Expr.unwrapped, emission, emission, innerAlike]
  | call pos receiver method args receiverAlike argsAlike =>
    rw [Expr.unwrapped_call, emission_call, emission_call,
      invocation_unwrapped_of receiverAlike argsAlike]
  | index pos array position arrayAlike positionAlike =>
    rw [Expr.unwrapped, emission, emission, arrayAlike, positionAlike]
  | arrayLiteral pos elements elementsAlike =>
    rw [Expr.unwrapped_arrayLiteral, emission, emission, map_emission_arguments,
      map_emission_arguments, List.map_map]
    have same : elements.map (scope.emission ∘ Expr.unwrapped) = elements.map scope.emission :=
      List.map_congr_left elementsAlike
    rw [same]
  | paren pos inner innerAlike => rw [Expr.unwrapped, innerAlike, emission]

theorem invocation_unwrapped (scope : Scope) (receiver : Option Expr) (method : String)
    (args : List Expr) :
    scope.invocation (receiver.map Expr.unwrapped) method (args.map Expr.unwrapped) =
      scope.invocation receiver method args :=
  invocation_unwrapped_of (fun expr _ => scope.emission_unwrapped expr)
    (fun arg _ => scope.emission_unwrapped arg) method

theorem lowerValue_unwrapped (scope : Scope) (expr : Expr) (expected : Ty) :
    scope.lowerValue expr.unwrapped expected = scope.lowerValue expr expected := by
  rw [lowerValue, lowerValue, emission_unwrapped]

theorem lowerJump_unwrapped (scope : Scope) (expr : Expr) (onTrue onFalse : Label) :
    scope.lowerJump expr.unwrapped onTrue onFalse = scope.lowerJump expr onTrue onFalse := by
  rw [lowerJump, lowerJump, emission_unwrapped]

end Scope

/-! ### Outcomes up to the kind of a fault -/

section Outcomes

variable {α β : Type} {first second : Except Fault α}

/-- Two outcomes are one result, or faults of one kind. -/
theorem outcomes_of_mapError_kind
    (same : first.mapError Fault.kind = second.mapError Fault.kind) :
    (∃ result, first = .ok result ∧ second = .ok result) ∨
      ∃ fault other, first = .error fault ∧ second = .error other ∧ fault.kind = other.kind := by
  cases first with
  | error fault =>
    cases second with
    | error other => exact .inr ⟨fault, other, rfl, rfl, Except.error.inj same⟩
    | ok result => cases same
  | ok result =>
    cases second with
    | error other => cases same
    | ok other => exact .inl ⟨result, rfl, congrArg Except.ok (Except.ok.inj same).symm⟩

theorem mapError_kind_map (same : first.mapError Fault.kind = second.mapError Fault.kind)
    (image : α → β) :
    (first.map image).mapError Fault.kind = (second.map image).mapError Fault.kind := by
  rcases outcomes_of_mapError_kind same with ⟨result, rfl, rfl⟩ | ⟨fault, other, rfl, rfl, kinds⟩
  · rfl
  · exact congrArg Except.error kinds

end Outcomes

/-- The steps do the same and have the same result, up to what a fault shows of the source. -/
def Lower.Alike {α : Type} (first second : Lower α) : Prop :=
  ∀ counters, (first counters).outcome.mapError Fault.kind =
      (second counters).outcome.mapError Fault.kind ∧
    (first counters).counters = (second counters).counters ∧
    (first counters).code = (second counters).code

namespace Lower.Alike

variable {α β : Type} {first second : Lower α}

theorem refl (step : Lower α) : Alike step step := fun _ => ⟨rfl, rfl, rfl⟩

theorem of_eq (same : first = second) : Alike first second := same ▸ .refl first

theorem fail {fault other : Fault} (same : fault.kind = other.kind) :
    Alike (Lower.fail fault : Lower α) (Lower.fail other) :=
  fun _ => ⟨congrArg Except.error same, rfl, rfl⟩

theorem bind (alike : Alike first second) {next other : α → Lower β}
    (rest : ∀ result, Alike (next result) (other result)) :
    Alike (first >>= next) (second >>= other) := by
  intro counters
  obtain ⟨outcomes, sameCounters, sameCode⟩ := alike counters
  rcases outcomes_of_mapError_kind outcomes with
    ⟨result, left, right⟩ | ⟨fault, otherFault, left, right, same⟩
  · obtain ⟨outcomes, restCounters, restCode⟩ := rest result (first counters).counters
    rw [bind_of_ok left, bind_of_ok right, ← sameCounters, ← sameCode, ← restCode]
    exact ⟨outcomes, restCounters, rfl⟩
  · rw [bind_of_error left, bind_of_error right]
    exact ⟨congrArg Except.error same, sameCounters, sameCode⟩

theorem joining {first second : Lower Unit} (alike : Alike first second) (target : Label) :
    Alike (joining target first) (joining target second) := by
  intro counters
  obtain ⟨outcomes, sameCounters, sameCode⟩ := alike counters
  rw [Lower.joining, Lower.joining]
  rcases outcomes_of_mapError_kind outcomes with
    ⟨result, left, right⟩ | ⟨fault, other, left, right, same⟩
  · simp only [left, right, ← sameCode]
    split
    · exact ⟨outcomes, sameCounters, sameCode⟩
    · exact ⟨rfl, sameCounters, rfl⟩
  · simp only [left, right]
    exact ⟨congrArg Except.error same, sameCounters, sameCode⟩

end Lower.Alike

open Lower

namespace Scope

variable {scope : Scope}

theorem lowerEval_unwrapped (scope : Scope) (expr : Expr) :
    scope.lowerEval expr.unwrapped = scope.lowerEval expr := by
  rw [lowerEval, lowerEval, Expr.stripped_unwrapped_comm]
  cases inside : expr.stripped with
  | paren pos inner => exact absurd inside (expr.stripped_ne_paren pos inner)
  | call pos receiver method args =>
    rw [Expr.unwrapped_call]
    simp only [lowerCall, invocation_unwrapped]
  | _ => exact congrArg (fun step => step >>= fun _ => pure ()) (scope.lowerValue_unwrapped _ _)

/-- A target that is no place for a value is a fault with or without its parentheses. -/
theorem alike_lowerAssign (scope : Scope) (target value : Expr) :
    Alike (scope.lowerAssign target.unwrapped value.unwrapped)
      (scope.lowerAssign target value) := by
  rw [lowerAssign, lowerAssign, Expr.stripped_unwrapped_comm]
  cases inside : target.stripped with
  | paren pos inner => exact absurd inside (target.stripped_ne_paren pos inner)
  | name pos name =>
    simp only [Expr.unwrapped, lowerValue_unwrapped]
    exact .refl _
  | index pos array position =>
    simp only [Expr.unwrapped, lowerValue_unwrapped]
    exact .refl _
  | call pos receiver method args =>
    rw [Expr.unwrapped_call]
    exact .fail rfl
  | _ => exact .fail rfl

theorem lowerReturn_unwrapped (scope : Scope) (value : Option Expr) :
    scope.lowerReturn (value.map Expr.unwrapped) = scope.lowerReturn value := by
  cases value with
  | none => rfl
  | some expr => rw [Option.map_some, lowerReturn, lowerReturn, lowerValue_unwrapped]

/-- Statements one after the other, if each of them is lowered alike. -/
theorem alike_body_of {body : List Stmt}
    (alike : ∀ stmt ∈ body, Alike (scope.lowerStmt stmt.unwrapped) (scope.lowerStmt stmt)) :
    Alike (scope.lowerBody (Stmt.unwrappedBody body)) (scope.lowerBody body) := by
  induction body with
  | nil => exact .refl _
  | cons stmt rest inductionHypothesis =>
    obtain ⟨first, others⟩ := List.forall_mem_cons.mp alike
    rw [Stmt.unwrappedBody, lowerBody, lowerBody]
    exact first.bind fun _ => inductionHypothesis others

theorem alike_lowerStmt (scope : Scope) (stmt : Stmt) :
    Alike (scope.lowerStmt stmt.unwrapped) (scope.lowerStmt stmt) := by
  induction stmt with
  | block pos body inductionHypothesis =>
    rw [Stmt.unwrapped, lowerStmt, lowerStmt]
    exact alike_body_of inductionHypothesis
  | ifElse pos condition thenBranch elseBranch thenHypothesis elseHypothesis =>
    rw [Stmt.unwrapped_ifElse, lowerStmt, lowerStmt]
    simp only [lowerJump_unwrapped]
    refine (Alike.refl _).bind fun _ => (Alike.refl _).bind fun _ => (Alike.refl _).bind fun _ => ?_
    refine (thenHypothesis.joining _).bind fun _ => (Alike.refl _).bind fun _ => ?_
    cases elseBranch with
    | none => exact .refl _
    | some other => exact (elseHypothesis other rfl).bind fun _ => .refl _
  | whileLoop pos condition body inductionHypothesis =>
    rw [Stmt.unwrapped, lowerStmt, lowerStmt]
    simp only [lowerJump_unwrapped]
    refine (Alike.refl _).bind fun _ => (Alike.refl _).bind fun _ => (Alike.refl _).bind fun _ => ?_
    exact (Alike.refl _).bind fun _ => inductionHypothesis.bind fun _ => .refl _
  | eval pos expr =>
    rw [Stmt.unwrapped, lowerStmt, lowerStmt]
    exact .of_eq (scope.lowerEval_unwrapped expr)
  | assign pos target value =>
    rw [Stmt.unwrapped, lowerStmt, lowerStmt]
    exact scope.alike_lowerAssign target value
  | ret pos value =>
    rw [Stmt.unwrapped, lowerStmt, lowerStmt]
    exact .of_eq (scope.lowerReturn_unwrapped value)

theorem lowerMethod_unwrapped (scope : Scope) (body : List Stmt) (before : Counters) :
    (scope.lowerMethod (Stmt.unwrappedBody body) before).1.mapError Fault.kind =
        (scope.lowerMethod body before).1.mapError Fault.kind ∧
      (scope.lowerMethod (Stmt.unwrappedBody body) before).2 =
        (scope.lowerMethod body before).2 := by
  have alike : Alike (scope.lowerBody (Stmt.unwrappedBody body)) (scope.lowerBody body) :=
    alike_body_of fun stmt _ => scope.alike_lowerStmt stmt
  obtain ⟨outcomes, sameCounters, sameCode⟩ := alike before
  refine ⟨?_, sameCounters⟩
  rw [lowerMethod, lowerMethod, sameCode]
  exact mapError_kind_map outcomes _

theorem lowerMethods_unwrapped (decls : List (MethodDecl × Scope)) (before : Counters) :
    (lowerMethods (decls.map (Prod.map MethodDecl.unwrapped id)) before).1.mapError Fault.kind =
      (lowerMethods decls before).1.mapError Fault.kind := by
  induction decls generalizing before with
  | nil => rfl
  | cons decl rest inductionHypothesis =>
    obtain ⟨outcomes, sameCounters⟩ := decl.2.lowerMethod_unwrapped decl.1.body before
    simp only [List.map_cons, lowerMethods, Prod.map, id, MethodDecl.unwrapped]
    rcases outcomes_of_mapError_kind outcomes with
      ⟨method, left, right⟩ | ⟨fault, other, left, right, same⟩
    · rw [left, right, sameCounters]
      exact mapError_kind_map (inductionHypothesis _) _
    · rw [left, right]
      exact congrArg Except.error same

end Scope

theorem ClassTable.lower_unwrapped (program : Program) (before : Counters) :
    ((ofProgram program.unwrapped).lower program.unwrapped before).1.mapError Fault.kind =
      ((ofProgram program).lower program before).1.mapError Fault.kind := by
  have decls : (ofProgram program.unwrapped).scopes program.unwrapped =
      .ok ((program.classDecl.methods.map fun decl =>
        (decl, (⟨ofProgram program, .ofDecl decl⟩ : Scope))).map
          (Prod.map MethodDecl.unwrapped id)) := by
    rw [scopes_ofProgram, ofProgram_unwrapped, Program.unwrapped, List.map_map, List.map_map]
    rfl
  have methods := Scope.lowerMethods_unwrapped
    (program.classDecl.methods.map fun decl => (decl, ⟨ofProgram program, .ofDecl decl⟩)) before
  rw [lower, lower, decls, scopes_ofProgram, ofProgram_unwrapped]
  exact mapError_kind_map methods _

/-! ### Checks -/

/-- The severities of some diagnostics, in order. -/
def severities (diagnostics : List Diagnostic) : List Severity :=
  diagnostics.map Diagnostic.severity

theorem severities_append (first second : List Diagnostic) :
    severities (first ++ second) = severities first ++ severities second :=
  List.map_append

theorem severities_flatMap {α : Type} (items : List α) (notes : α → List Diagnostic) :
    severities (items.flatMap notes) = items.flatMap fun item => severities (notes item) :=
  List.map_flatMap ..

/-- An error that is reported on a condition is as severe whatever it says and wherever. -/
theorem severities_unless (fine : Prop) [Decidable fine] (pos : Pos) (text : String) :
    severities (if fine then [] else [.error pos text]) = if fine then [] else [.error] := by
  split <;> rfl

namespace Check

variable (scope : Scope)

theorem severities_misfit (method : String) (arg : Expr) (position : Nat) (expected : Ty) :
    severities (misfit scope method arg.unwrapped position expected) =
      severities (misfit scope method arg position expected) := by
  simp only [misfit, Scope.typeOf_unwrapped, severities_unless]

theorem severities_restMisfits (callee : Signature) (method : String) (trailing : List Expr) :
    severities (restMisfits scope callee method (trailing.map Expr.unwrapped)) =
      severities (restMisfits scope callee method trailing) := by
  rw [restMisfits, restMisfits]
  cases callee.restParam? with
  | none => rfl
  | some rest =>
    cases callee.restElement? with
    | none => rfl
    | some element =>
      have each : ∀ exprs : List Expr, severities (((exprs.map Expr.unwrapped).zipIdx
            callee.fixedArity).flatMap fun (arg, position) =>
          misfit scope method arg position element) =
          severities ((exprs.zipIdx callee.fixedArity).flatMap fun (arg, position) =>
            misfit scope method arg position element) := by
        intro exprs
        rw [List.zipIdx_map, List.flatMap_map, severities_flatMap, severities_flatMap]
        simp only [Prod.map, id, severities_misfit]
      match trailing with
      | [] => rfl
      | [single] =>
        simp only [List.map_cons, List.map_nil, Scope.typeOf_unwrapped]
        split
        · rfl
        · exact each [single]
      | first :: second :: others => exact each (first :: second :: others)

theorem severities_argumentMisfits (callee : Signature) (pos : Pos) (method : String)
    (args : List Expr) :
    severities (argumentMisfits scope callee pos method (args.map Expr.unwrapped)) =
      severities (argumentMisfits scope callee pos method args) := by
  rw [argumentMisfits, argumentMisfits, List.length_map]
  split
  · rw [severities_append, severities_append, ← List.map_drop, severities_restMisfits,
      List.zip_map_left, List.zipIdx_map, List.flatMap_map, severities_flatMap, severities_flatMap]
    simp only [Prod.map, id, severities_misfit]
  · rfl

theorem goesToClass_unwrapped (receiver : Option Expr) :
    goesToClass scope (receiver.map Expr.unwrapped) = goesToClass scope receiver := by
  cases receiver with
  | none => rfl
  | some receiver =>
    rw [Option.map_some, goesToClass, goesToClass, Scope.typeOf_unwrapped, Expr.isThis_unwrapped]

theorem severities_conditionMisfit (condition : Expr) :
    severities (conditionMisfit scope condition.unwrapped) =
      severities (conditionMisfit scope condition) := by
  simp only [conditionMisfit, Scope.typeOf_unwrapped, severities_unless]

theorem severities_arrayMisfit (array : Expr) :
    severities (arrayMisfit scope array.unwrapped) = severities (arrayMisfit scope array) := by
  simp only [arrayMisfit, Scope.typeOf_unwrapped, severities_unless]

theorem severities_elementMisfit (expected : Ty) (element : Expr) :
    severities (elementMisfit scope expected element.unwrapped) =
      severities (elementMisfit scope expected element) := by
  simp only [elementMisfit, Scope.typeOf_unwrapped, severities_unless]

theorem severities_valueMisfits (target other : Expr) (ty : Ty) (value : Expr) :
    severities (valueMisfits scope target ty value.unwrapped) =
      severities (valueMisfits scope other ty value) := by
  rw [valueMisfits, valueMisfits]
  split
  · rfl
  · rw [Expr.stripped_unwrapped_comm, Scope.typeOf_unwrapped]
    cases inside : value.stripped with
    | paren pos inner => exact absurd inside (value.stripped_ne_paren pos inner)
    | arrayLiteral pos elements =>
      rw [Expr.unwrapped_arrayLiteral]
      cases ty.element? with
      | none => simp only [severities_unless]
      | some expected =>
        simp only [List.flatMap_map, severities_flatMap, severities_elementMisfit]
    | call pos receiver method args =>
      rw [Expr.unwrapped_call]
      simp only [severities_unless]
    | _ => simp only [Expr.unwrapped, severities_unless]

theorem severities_assignmentMisfits (target value : Expr) :
    severities (assignmentMisfits scope target.unwrapped value.unwrapped) =
      severities (assignmentMisfits scope target value) := by
  rw [assignmentMisfits, assignmentMisfits, Expr.stripped_unwrapped_comm]
  cases inside : target.stripped with
  | paren pos inner => exact absurd inside (target.stripped_ne_paren pos inner)
  | name pos name =>
    simp only [Expr.unwrapped]
    cases scope.lookup? name with
    | none => rfl
    | some found => exact severities_valueMisfits scope _ _ _ value
  | index pos array position =>
    rw [Expr.unwrapped]
    exact severities_valueMisfits scope _ _ _ value
  | call pos receiver method args =>
    rw [Expr.unwrapped_call]
    rfl
  | _ => rfl

/-- What a check has to say about an expression is as severe without parentheses. -/
theorem severities_noteAt_expr (check : Check) (expr : Expr)
    (notParen : ∀ pos inner, expr ≠ .paren pos inner) :
    severities (check.noteAt scope (.expr expr.unwrapped)) =
      severities (check.noteAt scope (.expr expr)) := by
  cases expr with
  | literal | name | this | newObject => rfl
  | paren pos inner => exact absurd rfl (notParen pos inner)
  | binary pos op left right =>
    rw [Expr.unwrapped]
    cases check with
    | binaryOperandCompatibility =>
      simp only [noteAt, operandMisfits, Scope.typeOf_unwrapped]
    | _ => rfl
  | not pos operand =>
    rw [Expr.unwrapped]
    cases check with
    | binaryOperandCompatibility =>
      simp only [noteAt, operandMisfits, Scope.typeOf_unwrapped]
    | _ => rfl
  | call pos receiver method args =>
    rw [Expr.unwrapped_call]
    cases check with
    | undeclaredMethod =>
      simp only [noteAt, undeclaredCallee, goesToClass_unwrapped]
    | methodCallArity =>
      simp only [noteAt, callMisfits, Scope.callee?_unwrapped]
      cases scope.callee? receiver method with
      | none => rfl
      | some callee => exact severities_argumentMisfits scope callee pos method args
    | thisUsage entry => cases receiver <;> rfl
    | _ => rfl
  | newArray pos size =>
    rw [Expr.unwrapped]
    cases check <;> rfl
  | index pos array position =>
    rw [Expr.unwrapped]
    cases check with
    | arrayIndexType =>
      simp only [noteAt, accessMisfits, severities_append, severities_arrayMisfit,
        Scope.typeOf_unwrapped, severities_unless]
    | _ => rfl
  | length pos array =>
    rw [Expr.unwrapped]
    cases check with
    | arrayIndexType => exact severities_arrayMisfit scope array
    | _ => rfl
  | arrayLiteral pos elements =>
    rw [Expr.unwrapped_arrayLiteral]
    cases check <;> rfl

theorem severities_noteAt_stmt (check : Check) (stmt : Stmt) :
    severities (check.noteAt scope (.stmt stmt.unwrapped)) =
      severities (check.noteAt scope (.stmt stmt)) := by
  cases stmt with
  | block pos body =>
    rw [Stmt.unwrapped]
    cases check <;> rfl
  | ifElse pos condition thenBranch elseBranch =>
    rw [Stmt.unwrapped_ifElse]
    cases check with
    | conditionExpression => exact severities_conditionMisfit scope condition
    | _ => rfl
  | whileLoop pos condition body =>
    rw [Stmt.unwrapped]
    cases check with
    | conditionExpression => exact severities_conditionMisfit scope condition
    | _ => rfl
  | eval pos expr =>
    rw [Stmt.unwrapped]
    cases check <;> rfl
  | assign pos target value =>
    rw [Stmt.unwrapped]
    cases check with
    | assignmentCompatibility => exact severities_assignmentMisfits scope target value
    | _ => rfl
  | ret pos value =>
    rw [Stmt.unwrapped]
    cases check with
    | returnCompatibility =>
      cases value with
      | none => rfl
      | some value =>
        simp only [noteAt, Option.map_some, returnedMisfits, Scope.typeOf_unwrapped]
    | _ => rfl

end Check

namespace Construct

/-- The construct without parentheses. -/
def unwrapped : Construct → Construct
  | .stmt whole => .stmt whole.unwrapped
  | .expr whole => .expr whole.unwrapped

/-- Unless it is a pair of parentheses itself, what is left of a construct is made of what is left
of its parts. -/
theorem parts_unwrapped (construct : Construct)
    (notParen : ∀ pos inner, construct ≠ .expr (.paren pos inner)) :
    construct.unwrapped.parts = construct.parts.map unwrapped := by
  cases construct with
  | stmt whole =>
    cases whole with
    | block pos body =>
      rw [unwrapped, Stmt.unwrapped, Stmt.unwrappedBody_eq_map, parts, parts, List.map_map,
        List.map_map]
      rfl
    | ifElse pos condition thenBranch elseBranch => cases elseBranch <;> rfl
    | ret pos value => cases value <;> rfl
    | _ => rfl
  | expr whole =>
    cases whole with
    | call pos receiver method args =>
      rw [unwrapped, Expr.unwrapped_call, parts, parts]
      cases receiver <;> simp [unwrapped]
    | arrayLiteral pos elements =>
      rw [unwrapped, Expr.unwrapped_arrayLiteral, parts, parts, List.map_map, List.map_map]
      rfl
    | paren pos inner => exact absurd rfl (notParen pos inner)
    | _ => rfl

end Construct

namespace Check

theorem severities_onConstruct (check : Check) (scope : Scope) (construct : Construct) :
    severities ((check.observer scope).onConstruct construct.unwrapped) =
      severities ((check.observer scope).onConstruct construct) := by
  induction construct using Construct.induct with
  | step construct inductionHypothesis =>
    by_cases isParen : ∃ pos inner, construct = .expr (.paren pos inner)
    · -- Nothing is noted at parentheses, and what is left is what is left of their inside.
      obtain ⟨pos, inner, rfl⟩ := isParen
      rw [Observer.onConstruct_eq _ (.expr (.paren pos inner)), noteAt_observer]
      have quiet : check.noteAt scope (.expr (.paren pos inner)) = [] := by
        cases check with
        | thisUsage entry =>
          rw [noteAt]
          cases refusal? entry scope <;> rfl
        | _ => rfl
      rw [quiet, Construct.parts, List.flatMap_singleton, List.nil_append]
      exact inductionHypothesis (.expr inner) (List.mem_singleton_self _)
    · have notParen : ∀ pos inner, construct ≠ .expr (.paren pos inner) :=
        fun pos inner same => isParen ⟨pos, inner, same⟩
      rw [Observer.onConstruct_eq, Observer.onConstruct_eq, severities_append, severities_append,
        noteAt_observer, noteAt_observer, construct.parts_unwrapped notParen, List.flatMap_map,
        severities_flatMap, severities_flatMap, List.flatMap_congr inductionHypothesis]
      cases construct with
      | stmt whole => rw [Construct.unwrapped, severities_noteAt_stmt]
      | expr whole =>
        rw [Construct.unwrapped, severities_noteAt_expr scope check whole fun pos inner same =>
          notParen pos inner (congrArg Construct.expr same)]

theorem severities_onBody (check : Check) (scope : Scope) (body : List Stmt) :
    severities ((check.observer scope).onBody (Stmt.unwrappedBody body)) =
      severities ((check.observer scope).onBody body) := by
  rw [Stmt.unwrappedBody_eq_map, Observer.onBody_eq_flatMap, Observer.onBody_eq_flatMap,
    List.flatMap_map, severities_flatMap, severities_flatMap]
  exact List.flatMap_congr fun stmt _ => severities_onConstruct check scope (.stmt stmt)

/-- Two checks do not look at bodies. -/
theorem declarations_unwrapped (program : Program) :
    duplicates program.unwrapped.classDecl = duplicates program.classDecl ∧
      misplacedVarargs program.unwrapped.classDecl = misplacedVarargs program.classDecl := by
  simp only [Program.unwrapped, duplicates, misplacedVarargs, declaredFields, declaredMethods,
    List.map_map, List.flatMap_map]
  exact ⟨rfl, rfl⟩

/-- Without its parentheses a program gets diagnostics of the same severities from a check. -/
theorem severities_run (check : Check) (program : Program) :
    ∃ bare written,
      check.run program.unwrapped (.ofProgram program.unwrapped) = .ok bare ∧
      check.run program (.ofProgram program) = .ok written ∧
      severities bare = severities written := by
  rw [ClassTable.ofProgram_unwrapped]
  cases reads : check.readsBodies (.ofProgram program) with
  | false =>
    obtain ⟨sameDuplicates, sameVarargs⟩ := declarations_unwrapped program
    cases check with
    | duplicateDeclarations => exact ⟨_, _, rfl, rfl, congrArg severities sameDuplicates⟩
    | varargsPlacement => exact ⟨_, _, rfl, rfl, congrArg severities sameVarargs⟩
    | undeclaredMethod =>
      have inherits : (ClassTable.ofProgram program).superClass.isSome = true := by
        simpa [readsBodies] using reads
      rw [run, run, if_pos inherits, if_pos inherits]
      exact ⟨[], [], rfl, rfl, rfl⟩
    | _ => cases reads
  | true =>
    rw [run_eq_overBodies reads, run_eq_overBodies reads, overBodies, overBodies,
      ← ClassTable.ofProgram_unwrapped, ClassTable.scopes_ofProgram,
      ClassTable.ofProgram_unwrapped, ClassTable.scopes_ofProgram]
    refine ⟨_, _, rfl, rfl, ?_⟩
    simp only [Program.unwrapped, List.flatMap_map, severities_flatMap]
    exact List.flatMap_congr fun decl _ => severities_onBody check _ decl.body

theorem severities_runAll (checks : List Check) (program : Program) :
    ∃ bare written,
      runAll checks program.unwrapped (.ofProgram program.unwrapped) = .ok bare ∧
      runAll checks program (.ofProgram program) = .ok written ∧
      severities bare.toList = severities written.toList := by
  choose bare written bareRan writtenRan alike using fun check => severities_run check program
  refine ⟨_, _, runAll_eq_ofList fun check _ => bareRan check,
    runAll_eq_ofList fun check _ => writtenRan check, ?_⟩
  rw [Report.toList_ofList, Report.toList_ofList, severities_flatMap, severities_flatMap]
  exact List.flatMap_congr fun check _ => alike check

end Check

/-- Parentheses make no difference. Without them a program is lowered to the same code, or fails
with a fault of the same kind, and the standard checks report as many diagnostics on it, each as
severe as the one in its place. -/
theorem Program.alike_unwrapped (program : Program) (entry : Option String) (before : Counters) :
    ((ClassTable.ofProgram program.unwrapped).lower program.unwrapped before).1.mapError
        Fault.kind =
      ((ClassTable.ofProgram program).lower program before).1.mapError Fault.kind ∧
    ∃ bare written,
      Check.runAll (Check.standard entry) program.unwrapped (.ofProgram program.unwrapped) =
        .ok bare ∧
      Check.runAll (Check.standard entry) program (.ofProgram program) = .ok written ∧
      bare.toList.map Diagnostic.severity = written.toList.map Diagnostic.severity :=
  ⟨ClassTable.lower_unwrapped program before,
    Check.severities_runAll (Check.standard entry) program⟩

end JavaMinus
