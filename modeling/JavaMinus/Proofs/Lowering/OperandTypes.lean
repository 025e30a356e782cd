/-
This file shows that typing and lowering agree. Typing tells the type of an
expression and lowering the type of the operand that holds its value; the two are
separate recursions. They give the same type for every expression but a foreign
call, one that binds to no method of the class. Typing cannot tell the type of
such a call, and its operand has the type that is asked for, which must then be
the type of a value.
-/

import JavaMinus.Proofs.Lowering.Types

namespace JavaMinus

namespace Scope

/-- Whether an expression, inside its parentheses, is a call that binds to no method of the
class. -/
def isForeign (scope : Scope) (expr : Expr) : Bool :=
  match expr.stripped with
  | .call _ receiver method _ => (scope.callee? receiver method).isNone
  | _ => false

@[simp] theorem isForeign_paren (scope : Scope) (pos : Pos) (inner : Expr) :
    scope.isForeign (.paren pos inner) = scope.isForeign inner := by
  rw [isForeign, Expr.stripped_paren, isForeign]

@[simp] theorem isForeign_call (scope : Scope) (pos : Pos) (receiver : Option Expr)
    (method : String) (args : List Expr) :
    scope.isForeign (.call pos receiver method args) = (scope.callee? receiver method).isNone := rfl

theorem isForeign_of_isBranching (scope : Scope) {expr : Expr}
    (branching : expr.isBranching = true) : scope.isForeign expr = false := by
  cases expr with
  | binary | not => rfl
  | _ => cases branching

/-- The type is the one that an operand for the value of an expression has. -/
def OperandTyped (scope : Scope) (expr : Expr) (expected ty : Ty) : Prop :=
  if scope.isForeign expr then
    ty = expected ∧ expected.isVoid = false ∧ expected.isUnknown = false
  else ty = scope.typeOf expr

theorem operandTyped_paren {scope : Scope} {pos : Pos} {inner : Expr} {expected ty : Ty} :
    scope.OperandTyped (.paren pos inner) expected ty ↔ scope.OperandTyped inner expected ty := by
  rw [OperandTyped, OperandTyped, isForeign_paren, typeOf]

end Scope

def Phrase.OperandTyped (scope : Scope) : Phrase → Prop
  | .value expr expected result => scope.OperandTyped expr expected result.ty
  | _ => True

theorem Lowers.operandTyped {scope : Scope} {phrase : Phrase} {before after : Counters}
    {code : List Instr} (lowers : Lowers scope phrase before code after) :
    phrase.OperandTyped scope := by
  induction lowers with
  | int | bool | this | arith | newObject | newArray | index | length => rfl
  | field found | var found =>
    show _ = scope.typeOf _
    rw [Scope.typeOf, Scope.nameType, found]
    rfl
  | @callValue pos receiver method _ _ _ _ _ _ callLowers valued =>
    have returns := callLowers.resultTyped
    rw [Phrase.ResultTyped] at returns
    rw [Bool.or_eq_false_iff] at valued
    rw [Phrase.OperandTyped, Scope.OperandTyped, Scope.isForeign_call, Scope.typeOf_call]
    cases bound : scope.callee? receiver method with
    | none =>
      rw [bound, Option.map_none, Option.getD_none] at returns
      rw [returns] at valued
      exact ⟨returns, valued⟩
    | some callee =>
      rw [bound] at returns
      exact returns
  | arrayLiteral packLowers => exact packLowers.resultTyped
  | paren _ inner => exact Scope.operandTyped_paren.mpr inner
  | materialize branching =>
    rw [Phrase.OperandTyped, Scope.OperandTyped, scope.isForeign_of_isBranching branching]
    exact (scope.typeOf_of_isBranching branching).symm
  | _ => trivial

/-- The operand that holds the value of an expression has the type of the expression, unless it is a
foreign call. That has the type that is asked for, which is neither void nor unknown. -/
theorem Scope.ty_of_lowerValue {scope : Scope} {expr : Expr} {expected : Ty} {before : Counters}
    {operand : Operand} (lowered : (scope.lowerValue expr expected before).outcome = .ok operand) :
    if scope.isForeign expr then
      operand.ty = expected ∧ expected.isVoid = false ∧ expected.isUnknown = false
    else operand.ty = scope.typeOf expr :=
  ((scope.sound expr).value (Lower.gives_of_ok lowered)).operandTyped

/-- An instance method of a class `A` whose only parameter is hidden by a field of another type. -/
def Scope.hiding : Scope where
  table :=
    { className := "A"
      superClass := none
      imports := ["io.Lib"]
      fields := [⟨"n", .int⟩]
      methods := [method] }
  method := method
where
  method : Signature :=
    { name := "f"
      returnType := .boolean
      params := [⟨"n", .boolean⟩]
      locals := []
      isStatic := false
      isPublic := true
      isVarargs := false
      pos := .nowhere }

/-- A call to a method `f` with the variable `n`. -/
def Expr.callOn (receiver : Expr) : Expr :=
  .call .nowhere (some receiver) "f" [.name .nowhere "n"]

/-- What is asked for decides the type of `(Lib.f(n))`, but not that of `(this).f(n)`. -/
theorem ty_of_lowerValue_hiding :
    ∃ foreign own,
      (Scope.hiding.lowerValue (.paren .nowhere (.callOn (.name .nowhere "Lib"))) .int {}).outcome =
        .ok foreign ∧
      (Scope.hiding.lowerValue (.callOn (.paren .nowhere (.this .nowhere))) .int {}).outcome =
        .ok own ∧
      foreign.ty = .int ∧ own.ty = .boolean := by
  obtain ⟨foreign, foreignLowered⟩ : ∃ foreign,
      (Scope.hiding.lowerValue (.paren .nowhere (.callOn (.name .nowhere "Lib"))) .int {}).outcome =
        .ok foreign := ⟨_, rfl⟩
  obtain ⟨own, ownLowered⟩ : ∃ own,
      (Scope.hiding.lowerValue (.callOn (.paren .nowhere (.this .nowhere))) .int {}).outcome =
        .ok own := ⟨_, rfl⟩
  have foreignTyped := Scope.ty_of_lowerValue foreignLowered
  rw [if_pos (by decide)] at foreignTyped
  have ownTyped := Scope.ty_of_lowerValue ownLowered
  rw [if_neg (by decide)] at ownTyped
  exact ⟨foreign, own, foreignLowered, ownLowered, foreignTyped.1, ownTyped⟩

end JavaMinus
