/-
Checks on names that are used. A name in a body stands for a variable, for the
class or for one that is imported; a called method must be declared in the
class, unless the call goes to an object of another class or to something of
unknown type.
-/

import JavaMinus.Diagnostic
import JavaMinus.Syntax.Observer
import JavaMinus.Typing

namespace JavaMinus

namespace Check

/-- A name that stands for nothing is an error. -/
def undeclaredName (scope : Scope) : Expr → List Diagnostic
  | .name pos name =>
    if (scope.lookup? name).isNone && !scope.table.isKnownClass name then
      [.error pos s!"Variable '{name}' does not exist."]
    else []
  | _ => []

/-- Whether a call with this receiver can only go to a method of the class. -/
def goesToClass (scope : Scope) : Option Expr → Bool
  | none => true
  | some receiver =>
    let ty := scope.typeOf receiver
    receiver.isThis || (!ty.isUnknown && (!ty.isClass || ty.base == scope.table.className))

/-- A call that must go to a method of the class, and to one that is not declared, is an error. -/
def undeclaredCallee (scope : Scope) : Expr → List Diagnostic
  | .call pos receiver method _ =>
    if (scope.table.method? method).isNone && goesToClass scope receiver then
      [.error pos s!"Method '{method}' does not exist."]
    else []
  | _ => []

def undeclaredVariables (scope : Scope) : Observer Diagnostic where
  expr := undeclaredName scope

def undeclaredMethods (scope : Scope) : Observer Diagnostic where
  expr := undeclaredCallee scope

end Check

end JavaMinus
