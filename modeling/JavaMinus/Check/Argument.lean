/-
Checks on the arguments of calls that bind to a method of the class. Without
trailing arguments the number must match. With them, the fixed parameters must
have their arguments, and every further argument must have the element type,
unless there is exactly one and it is already the array.
-/

import JavaMinus.Diagnostic
import JavaMinus.Syntax.Observer
import JavaMinus.Typing

namespace JavaMinus

namespace Check

/-- An argument whose type is known must have the expected type. Positions count from zero and
are told from one. -/
def misfit (scope : Scope) (method : String) (arg : Expr) (position : Nat) (expected : Ty) :
    List Diagnostic :=
  let found := scope.typeOf arg
  let place := position + 1
  if found.isUnknown || found == expected then []
  else
    [.error arg.pos
      s!"Argument {place} of call to '{method}' has type '{found.text}' but '{expected.text}' is expected"]

/-- Whether a method takes this number of arguments. -/
def takes (callee : Signature) (count : Nat) : Bool :=
  if callee.isVarargs then decide (callee.fixedArity ≤ count) else count == callee.fixedArity

/-- The errors on the arguments behind the fixed ones. -/
def restMisfits (scope : Scope) (callee : Signature) (method : String) (trailing : List Expr) :
    List Diagnostic :=
  match callee.restParam?, callee.restElement? with
  | some rest, some element =>
    let isArray := match trailing with
      | [single] => scope.typeOf single == rest.ty
      | _ => false
    if isArray then []
    else (trailing.zipIdx callee.fixedArity).flatMap fun (arg, position) =>
      misfit scope method arg position element
  | _, _ => []

/-- The errors on the arguments of a call to a method. -/
def argumentMisfits (scope : Scope) (callee : Signature) (pos : Pos) (method : String)
    (args : List Expr) : List Diagnostic :=
  if takes callee args.length then
    let fixed := (args.zip (callee.params.take callee.fixedArity)).zipIdx
    (fixed.flatMap fun ((arg, param), position) => misfit scope method arg position param.ty)
      ++ restMisfits scope callee method (args.drop callee.fixedArity)
  else [.error pos "The number of parameters are not the same"]

/-- The errors on the arguments of a call that binds to a method of the class. -/
def callMisfits (scope : Scope) : Expr → List Diagnostic
  | .call pos receiver method args =>
    match scope.callee? receiver method with
    | some callee => argumentMisfits scope callee pos method args
    | none => []
  | _ => []

def arguments (scope : Scope) : Observer Diagnostic where
  expr := callMisfits scope

end Check

end JavaMinus
