/-
Lowering statements. The condition of an `if` or `while` is lowered as a jump to
the labels of its branches. A branch that already ends in a jump or a return is
not followed by another jump. A call whose value is not used is discarded unless
it yields nothing anyway.
-/

import JavaMinus.Lowering.Emission

namespace JavaMinus

open Lower

namespace Scope

/-- Lower a call that stands as a statement. A call that binds to no method of the class is taken
to yield nothing. -/
def lowerCall (scope : Scope) (receiver : Option Expr) (method : String) (args : List Expr) :
    Lower Unit := do
  let call ← scope.invocation receiver method args .void
  if call.returnType.isVoid then emit (.call call) else emit (.discard (.call call))

/-- Lower an expression that stands as a statement. -/
def lowerEval (scope : Scope) (expr : Expr) : Lower Unit :=
  match expr.stripped with
  | .call _ receiver method args => scope.lowerCall receiver method args
  | other => do
    let _ ← scope.lowerValue other .unknown

/-- The right-hand side that stores an operand in a variable. -/
def rightHandSide (scope : Scope) : Operand → Instr
  | .field name ty => .getField (.this scope.table.classType) name ty
  | operand => .value operand

/-- Lower an assignment. What the target is decides where the value goes, and a target that is no
place for a value is a fault before the value is computed. -/
def lowerAssign (scope : Scope) (target value : Expr) : Lower Unit :=
  match target.stripped with
  | .name pos name =>
    match scope.lookup? name with
    | some (.field binding) => do
      let operand ← scope.lowerValue value binding.ty
      emit (.putField (.this scope.table.classType) binding.name binding.ty operand)
    | some found => do
      let operand ← scope.lowerValue value found.ty
      emit (.assign name (scope.rightHandSide operand) found.ty)
    | none => fail (.unresolved pos name scope.method.name)
  | .index _ array position => do
    let arrayOperand ← scope.lowerValue array .intArray
    let positionOperand ← scope.lowerValue position .int
    let operand ← scope.lowerValue value .int
    emit (.storeElement arrayOperand positionOperand operand)
  | other => fail (.notAssignable other)

/-- Lower a return. -/
def lowerReturn (scope : Scope) (value : Option Expr) : Lower Unit :=
  match value with
  | none => emit (.ret none scope.method.returnType)
  | some expr => do
    let operand ← scope.lowerValue expr scope.method.returnType
    emit (.ret (some operand) scope.method.returnType)

mutual

/-- Lower a statement. -/
def lowerStmt (scope : Scope) (stmt : Stmt) : Lower Unit :=
  match stmt with
  | .block _ body => scope.lowerBody body
  | .ifElse _ condition thenBranch elseBranch => do
    let id ← labelId
    let onTrue : Label := ⟨s!"then_{id}"⟩
    let onFalse : Label := ⟨s!"else_{id}"⟩
    let done : Label := ⟨s!"endif_{id}"⟩
    scope.lowerJump condition onTrue onFalse
    emit (.label onTrue)
    joining done (scope.lowerStmt thenBranch)
    emit (.label onFalse)
    match elseBranch with
    | none => emit (.label done)
    | some other => do
      scope.lowerStmt other
      emit (.label done)
  | .whileLoop _ condition body => do
    let id ← labelId
    let again : Label := ⟨s!"while_cond_{id}"⟩
    let onTrue : Label := ⟨s!"while_body_{id}"⟩
    let done : Label := ⟨s!"while_end_{id}"⟩
    emit (.label again)
    scope.lowerJump condition onTrue done
    emit (.label onTrue)
    scope.lowerStmt body
    emit (.goto again)
    emit (.label done)
  | .eval _ expr => scope.lowerEval expr
  | .assign _ target value => scope.lowerAssign target value
  | .ret _ value => scope.lowerReturn value
termination_by structural stmt

/-- Lower statements one after the other. -/
def lowerBody (scope : Scope) (body : List Stmt) : Lower Unit :=
  match body with
  | [] => pure ()
  | stmt :: rest => do
    scope.lowerStmt stmt
    scope.lowerBody rest
termination_by structural body

end

end Scope

end JavaMinus
