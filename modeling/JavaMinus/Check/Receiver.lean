/-
Checks on the receiver of a method. A static method has none, so neither `this`
nor a call to an instance method without a receiver makes sense in it. The entry
method of a program may be treated as one that must not use `this`, whether or
not it is static.
-/

import JavaMinus.Diagnostic
import JavaMinus.Syntax.Observer
import JavaMinus.Typing

namespace JavaMinus

namespace Check

/-- Why `this` is refused in the method, if it is. -/
def refusal? (entry : Option String) (scope : Scope) : Option String :=
  if entry == some scope.method.name then
    some s!"This keyword cannot be used in {scope.method.name} method"
  else if scope.method.isStatic then some "This keyword cannot be used in static methods"
  else none

/-- The errors on an expression in a method where `this` is refused. -/
def receiverMisuse (refusal : String) (scope : Scope) : Expr → List Diagnostic
  | .this pos => [.error pos refusal]
  | .call pos none method _ =>
    if scope.method.isStatic && (scope.table.method? method).any fun callee => !callee.isStatic then
      [.error pos
        s!"Instance method '{method}' cannot be called from static method '{scope.method.name}'"]
    else []
  | _ => []

def receivers (entry : Option String) (scope : Scope) : Observer Diagnostic where
  expr := fun expr =>
    match refusal? entry scope with
    | some refusal => receiverMisuse refusal scope expr
    | none => []

end Check

end JavaMinus
