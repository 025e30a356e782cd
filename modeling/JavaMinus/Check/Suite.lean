/-
The checks and how they are run. A check looks at a program and its class table
and reports diagnostics; it never sees what another check reported. A check on
bodies needs a signature for every method and is a fault if one is missing. The
standard suite runs all checks in a fixed order, and the report lists their
diagnostics in that order.
-/

import JavaMinus.Check.Argument
import JavaMinus.Check.Declaration
import JavaMinus.Check.Operand
import JavaMinus.Check.Receiver
import JavaMinus.Check.Resolution
import JavaMinus.Check.Storage

namespace JavaMinus

/-- The checks on a program. -/
inductive Check
  | duplicateDeclarations
  | varargsPlacement
  | undeclaredVariable
  | undeclaredMethod
  | methodCallArity
  | assignmentCompatibility
  | binaryOperandCompatibility
  | conditionExpression
  | arrayIndexType
  | returnCompatibility
  | thisUsage (entry : Option String)
deriving DecidableEq, Repr, Inhabited

namespace Check

/-- The name a check is listed under. -/
def name : Check → String
  | .duplicateDeclarations => "DuplicateDeclarations"
  | .varargsPlacement => "VarargsPlacement"
  | .undeclaredVariable => "UndeclaredVariable"
  | .undeclaredMethod => "UndeclaredMethod"
  | .methodCallArity => "MethodCallArity"
  | .assignmentCompatibility => "AssignmentCompatibility"
  | .binaryOperandCompatibility => "BinaryOperandCompatibility"
  | .conditionExpression => "ConditionExpression"
  | .arrayIndexType => "ArrayIndexType"
  | .returnCompatibility => "ReturnCompatibility"
  | .thisUsage _ => "ThisUsage"

/-- All checks in the standard order. If an entry method is given, `this` is refused in it. -/
def standard (entry : Option String) : List Check :=
  [.duplicateDeclarations, .varargsPlacement, .undeclaredVariable, .undeclaredMethod,
    .methodCallArity, .assignmentCompatibility, .binaryOperandCompatibility, .conditionExpression,
    .arrayIndexType, .returnCompatibility, .thisUsage entry]

/-- The check that is listed under a name. -/
def ofName? (entry : Option String) (name : String) : Option Check :=
  (standard entry).find? fun check => check.name == name

/-- Run a check over every method body in its scope. -/
def overBodies (observer : Scope → Observer Diagnostic) (program : Program) (table : ClassTable) :
    Except Fault (List Diagnostic) := do
  let methods ← table.scopes program
  return methods.flatMap fun (decl, scope) => (observer scope).onBody decl.body

/-- What a check reports on a program. With a superclass, any method may be inherited, so methods
are then not required to be declared. -/
def run (check : Check) (program : Program) (table : ClassTable) :
    Except Fault (List Diagnostic) :=
  match check with
  | .duplicateDeclarations => .ok (duplicates program.classDecl)
  | .varargsPlacement => .ok (misplacedVarargs program.classDecl)
  | .undeclaredVariable => overBodies undeclaredVariables program table
  | .undeclaredMethod =>
    if table.superClass.isSome then .ok [] else overBodies undeclaredMethods program table
  | .methodCallArity => overBodies arguments program table
  | .assignmentCompatibility => overBodies assignments program table
  | .binaryOperandCompatibility => overBodies operands program table
  | .conditionExpression => overBodies conditions program table
  | .arrayIndexType => overBodies accesses program table
  | .returnCompatibility => overBodies returns program table
  | .thisUsage entry => overBodies (receivers entry) program table

/-- Run checks in order and collect what they report. -/
def runAll (checks : List Check) (program : Program) (table : ClassTable) : Except Fault Report :=
  checks.foldlM (fun report check => return report.extend (← check.run program table)) .empty

end Check

end JavaMinus
