/-
Static types of expressions. Typing always has an answer and reports nothing:
what it cannot tell, an undeclared name or a call to a method outside the class,
has the unknown type. A call binds to a method of the class if it has no
receiver, if the receiver is `this`, or if the receiver has the type of the
class; it then has the return type of the first method of that name, whether or
not the arguments fit.
-/

import JavaMinus.ClassTable

namespace JavaMinus

namespace Scope

/-- The type of a name: that of the variable, else of the class it names. -/
def nameType (scope : Scope) (name : String) : Ty :=
  match scope.lookup? name with
  | some found => found.ty
  | none => if scope.table.isKnownClass name then .named name else .unknown

/-- Whether a receiver of this form and type is an object of the class, or the class itself. -/
def isOwn (scope : Scope) (receiver : Expr) (ty : Ty) : Bool :=
  receiver.isThis || (ty.isClass && ty.base == scope.table.className)

/-- The type of a call to a method of the class. -/
def resultType (scope : Scope) (method : String) : Ty :=
  ((scope.table.method? method).map Signature.returnType).getD .unknown

/-- The static type of an expression. -/
def typeOf (scope : Scope) : Expr → Ty
  | .literal _ (.int _) => .int
  | .literal _ (.bool _) => .boolean
  | .name _ name => scope.nameType name
  | .this _ => scope.table.classType
  | .binary _ op _ _ => if op.isArithmetic then .int else .boolean
  | .not _ _ => .boolean
  | .call _ none method _ => scope.resultType method
  | .call _ (some receiver) method _ =>
    if scope.isOwn receiver (scope.typeOf receiver) then scope.resultType method else .unknown
  | .newObject _ className => .named className
  | .newArray _ _ | .arrayLiteral _ _ => .intArray
  | .index _ _ _ | .length _ _ => .int
  | .paren _ inner => scope.typeOf inner

/-- The method of the class that a call binds to, if it binds to one. -/
def callee? (scope : Scope) (receiver : Option Expr) (method : String) : Option Signature :=
  match receiver with
  | none => scope.table.method? method
  | some receiver =>
    if scope.isOwn receiver (scope.typeOf receiver) then scope.table.method? method else none

/-- A call has the return type of the method it binds to. -/
theorem typeOf_call (scope : Scope) (pos : Pos) (receiver : Option Expr) (method : String)
    (args : List Expr) :
    scope.typeOf (.call pos receiver method args) =
      ((scope.callee? receiver method).map Signature.returnType).getD .unknown := by
  cases receiver with
  | none => rfl
  | some receiver =>
    rw [typeOf, callee?]
    split <;> rfl

/-- Parentheses do not change the type. -/
theorem typeOf_stripped (scope : Scope) (expr : Expr) :
    scope.typeOf expr.stripped = scope.typeOf expr := by
  induction expr with
  | paren pos inner inductionHypothesis =>
    rw [Expr.stripped_paren, inductionHypothesis, typeOf]
  | _ => rfl

end Scope

end JavaMinus
