/-
Checks on operands: of the operators, of conditions, and of array access. An
operand of unknown type is never at fault.
-/

import JavaMinus.Diagnostic
import JavaMinus.Syntax.Observer
import JavaMinus.Typing

namespace JavaMinus

namespace Check

/-- The type that both operands of an operator must have. -/
def operandType (op : BinaryOp) : Ty := if op.isLogical then .boolean else .int

/-- The errors on the operands of an operator. If one type is unknown the other is not judged. -/
def operandMisfits (scope : Scope) : Expr → List Diagnostic
  | .binary pos op leftExpr rightExpr =>
    let left := scope.typeOf leftExpr
    let right := scope.typeOf rightExpr
    let expected := operandType op
    if left.isUnknown || right.isUnknown || (left == expected && right == expected) then []
    else
      [.error pos
        s!"Operator '{op.symbol}' expects '{expected.text}' operands but found '{left.text}' and '{right.text}'"]
  | .not pos operandExpr =>
    let operand := scope.typeOf operandExpr
    if operand.isUnknown || operand.isBoolean then []
    else [.error pos s!"Operator '!' expects a 'boolean' operand but found '{operand.text}'"]
  | _ => []

/-- A condition must be a truth value. -/
def conditionMisfit (scope : Scope) (condition : Expr) : List Diagnostic :=
  let ty := scope.typeOf condition
  if ty.isUnknown || ty.isBoolean then []
  else [.error condition.pos s!"'{condition.describe}' is not a condition."]

/-- Only arrays have elements and a length. -/
def arrayMisfit (scope : Scope) (array : Expr) : List Diagnostic :=
  let ty := scope.typeOf array
  if ty.isUnknown || ty.isArray then []
  else [.error array.pos s!"'{array.describe}' is not an array"]

/-- The errors on an access to an array. -/
def accessMisfits (scope : Scope) : Expr → List Diagnostic
  | .length _ array => arrayMisfit scope array
  | .index _ array position =>
    let ty := scope.typeOf position
    arrayMisfit scope array ++
      if ty.isUnknown || ty.isInt then []
      else [.error position.pos s!"'{position.describe}' is not a valid array access"]
  | _ => []

def operands (scope : Scope) : Observer Diagnostic where
  expr := operandMisfits scope

def conditions (scope : Scope) : Observer Diagnostic where
  condition := conditionMisfit scope

def accesses (scope : Scope) : Observer Diagnostic where
  expr := accessMisfits scope

end Check

end JavaMinus
