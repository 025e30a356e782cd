/-
Checks on where values go: into variables and elements by assignment, and out of
the method by return. A value must fit the declared type; an array literal is
judged element by element, so that each wrong element is reported where it
stands.
-/

import JavaMinus.Diagnostic
import JavaMinus.Syntax.Observer
import JavaMinus.Typing

namespace JavaMinus

namespace Check

/-- An element whose type is known must have the element type. -/
def elementMisfit (scope : Scope) (expected : Ty) (element : Expr) : List Diagnostic :=
  let found := scope.typeOf element
  if found.isUnknown || found == expected then []
  else
    [.error element.pos
      s!"Array element '{element.describe}' has type '{found.text}' but '{expected.text}' is expected"]

/-- The errors on a value that is assigned to a target of this type. -/
def valueMisfits (scope : Scope) (target : Expr) (ty : Ty) (value : Expr) : List Diagnostic :=
  if ty.isUnknown then []
  else
    match value.stripped, ty.element? with
    | .arrayLiteral _ elements, some expected => elements.flatMap (elementMisfit scope expected)
    | _, _ =>
      let found := scope.typeOf value
      if found.isUnknown || scope.table.assignable ty found then []
      else
        [.error value.pos
          s!"Cannot assign '{value.describe}' of type '{found.text}' to '{target.describe}' of type '{ty.text}'"]

/-- The errors on an assignment. A target that is undeclared is left to the check of names. -/
def assignmentMisfits (scope : Scope) (target value : Expr) : List Diagnostic :=
  match target.stripped with
  | .name pos name =>
    match scope.lookup? name with
    | some found => valueMisfits scope (.name pos name) found.ty value
    | none =>
      if scope.table.isKnownClass name then [.error pos s!"'{name}' is not a variable"] else []
  | .index pos array position => valueMisfits scope (.index pos array position) .int value
  | other => [.error other.pos s!"'{other.describe}' is not a variable"]

/-- The errors on a statement that assigns. -/
def storedMisfits (scope : Scope) : Stmt → List Diagnostic
  | .assign _ target value => assignmentMisfits scope target value
  | _ => []

/-- The errors on a statement that returns. -/
def returnedMisfits (scope : Scope) : Stmt → List Diagnostic
  | .ret pos (some value) =>
    let found := scope.typeOf value
    if scope.method.returnType.isVoid then
      [.error pos s!"Method '{scope.method.name}' is void and cannot return a value"]
    else if found.isUnknown || scope.table.assignable scope.method.returnType found then []
    else [.error pos "Return types are not compatible"]
  | .ret pos none =>
    if scope.method.returnType.isVoid then [] else [.error pos "Return types are not compatible"]
  | _ => []

def assignments (scope : Scope) : Observer Diagnostic where
  stmt := storedMisfits scope

def returns (scope : Scope) : Observer Diagnostic where
  stmt := returnedMisfits scope

end Check

end JavaMinus
