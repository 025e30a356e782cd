/-
Lowering expressions. An expression can be lowered in two ways: for its value,
which leaves an operand, or for the jump it decides, which goes to one of two
places. Each form of expression has one natural way, and the other is made from
it: a truth value that is given as a jump is turned into a word by a diamond of
labels that stores `0` or `1`, and a word is turned into a jump by testing
whether it is zero. Comparisons and the logical operators are natural as jumps,
the latter skipping their right operand when the left one decides.

The type asked of a value only matters to calls that bind to no method of the
class, for which nothing else tells the type of the result.
-/

import JavaMinus.Lowering.Basic

namespace JavaMinus

open Lower

/-- The two ways to lower an expression. -/
structure Emission where
  /-- Compute the value, if a value of the given type is asked for. -/
  value : Ty → Lower Operand
  /-- Jump to the first place if the expression holds, else to the second. -/
  jump : Label → Label → Lower Unit

namespace Emission

/-- Turn a jump into a value: `0` on the one way, `1` on the other. -/
def materialize (scope : Scope) (jump : Label → Label → Lower Unit) : Lower Operand := do
  let id ← labelId
  let result ← temp scope
  let onTrue : Label := ⟨s!"true_{id}"⟩
  let onFalse : Label := ⟨s!"false_{id}"⟩
  let done : Label := ⟨s!"end_{id}"⟩
  jump onTrue onFalse
  emit (.label onFalse)
  emit (.assign result (.value (.bool false)) .boolean)
  emit (.goto done)
  emit (.label onTrue)
  emit (.assign result (.value (.bool true)) .boolean)
  emit (.label done)
  return .var result .boolean

/-- Lower what is natural as a value; the jump tests it. -/
def ofValue (value : Ty → Lower Operand) : Emission where
  value := value
  jump onTrue onFalse := do
    let operand ← value .boolean
    emit (.branch (.nonZero operand) onTrue)
    emit (.goto onFalse)

/-- Lower what is natural as a jump; the value is made from it. -/
def ofJump (scope : Scope) (jump : Label → Label → Lower Unit) : Emission where
  value _ := materialize scope jump
  jump := jump

/-- A literal. A truth value decides a jump at once. -/
def literal : Literal → Emission
  | .int value => ofValue fun _ => pure (.int value)
  | .bool value =>
    { value := fun _ => pure (.bool value)
      jump := fun onTrue onFalse => emit (.goto (if value then onTrue else onFalse)) }

/-- A name stands for a field or a variable; a class is no value. -/
def name (scope : Scope) (pos : Pos) (name : String) : Emission :=
  ofValue fun _ =>
    match scope.lookup? name with
    | some (.field binding) => pure (.field binding.name binding.ty)
    | some found => pure (.var name found.ty)
    | none => fail (.unresolved pos name scope.method.name)

/-- Arithmetic computes both operands, the left one first. -/
def arith (scope : Scope) (op : ArithOp) (left right : Emission) : Emission :=
  ofValue fun _ => do
    let leftOperand ← left.value .int
    let rightOperand ← right.value .int
    store scope (.arith op leftOperand rightOperand .int) .int

/-- A comparison computes both operands, the left one first. -/
def less (scope : Scope) (left right : Emission) : Emission :=
  ofJump scope fun onTrue onFalse => do
    let leftOperand ← left.value .int
    let rightOperand ← right.value .int
    emit (.branch (.less leftOperand rightOperand) onTrue)
    emit (.goto onFalse)

/-- A conjunction goes on to its right operand only if the left one holds. -/
def and (scope : Scope) (left right : Emission) : Emission :=
  ofJump scope fun onTrue onFalse => do
    let id ← labelId
    let middle : Label := ⟨s!"and_{id}"⟩
    left.jump middle onFalse
    emit (.label middle)
    right.jump onTrue onFalse

/-- A disjunction goes on to its right operand only if the left one fails. -/
def or (scope : Scope) (left right : Emission) : Emission :=
  ofJump scope fun onTrue onFalse => do
    let id ← labelId
    let middle : Label := ⟨s!"or_{id}"⟩
    left.jump onTrue middle
    emit (.label middle)
    right.jump onTrue onFalse

/-- Each binary operator by its own rule. -/
def binary (scope : Scope) : BinaryOp → Emission → Emission → Emission
  | .arith op => arith scope op
  | .less => less scope
  | .and => and scope
  | .or => or scope

/-- A negation jumps the other way. -/
def not (scope : Scope) (operand : Emission) : Emission :=
  ofJump scope fun onTrue onFalse => operand.jump onFalse onTrue

/-- A new object is allocated, then its constructor runs. -/
def newObject (scope : Scope) (className : String) : Emission :=
  ofValue fun _ => do
    let object ← store scope (.newObject className) (.named className)
    emit (.call ⟨.constructor, .receiver object, "<init>", [], .void⟩)
    return object

def newArray (scope : Scope) (size : Emission) : Emission :=
  ofValue fun _ => do
    let operand ← size.value .int
    store scope (.newArray operand) .intArray

def index (scope : Scope) (array position : Emission) : Emission :=
  ofValue fun _ => do
    let arrayOperand ← array.value .intArray
    let positionOperand ← position.value .int
    store scope (.loadElement arrayOperand positionOperand) .int

def length (scope : Scope) (array : Emission) : Emission :=
  ofValue fun _ => do
    let operand ← array.value .intArray
    store scope (.arrayLength operand) .int

/-- Compute values and store them into an array from a position on. -/
def fill (array : Operand) (element : Ty) (position : Nat) : List Emission → Lower Unit
  | [] => pure ()
  | item :: rest => do
    let operand ← item.value element
    emit (.storeElement array (.int (Int32.ofNat position)) operand)
    fill array element (position + 1) rest

/-- Pack values into a new array. -/
def pack (scope : Scope) (element : Ty) (items : List Emission) : Lower Operand := do
  let size := Operand.int (Int32.ofNat items.length)
  let array ← store scope (.newArray size) (.arrayOf element.base)
  fill array element 0 items
  return array

/-! ### Calls -/

/-- An argument of a call: its static type and how to lower it. -/
structure Argument where
  ty : Ty
  emission : Emission

/-- The type asked of an argument that has no parameter: its own, or an integer if that is not
known. -/
def Argument.ownType (arg : Argument) : Ty := if arg.ty.isUnknown then .int else arg.ty

/-- Compute an argument that has no parameter. -/
def Argument.bare (arg : Argument) : Lower Operand := arg.emission.value arg.ownType

/-- What a call without a receiver is made on. A static method cannot reach an instance method
that way. -/
def implicitTarget (scope : Scope) (method : String) : Lower (CallKind × CallTarget) :=
  match scope.table.method? method with
  | some callee =>
    if callee.isStatic then pure (.static, .ofClass scope.table.className)
    else if scope.method.isStatic then fail (.noReceiver method scope.method.name)
    else pure (.virtual, .this)
  | none =>
    if scope.method.isStatic then pure (.static, .ofClass scope.table.className)
    else pure (.virtual, .this)

/-- Make a call on the value of an expression. -/
def onValue (receiver : Emission) : Lower (CallKind × CallTarget) := do
  let operand ← receiver.value .unknown
  return (.virtual, .receiver operand)

/-- What a call with a receiver is made on. A name that stands for no variable but for a known
class makes the call a static one. -/
def explicitTarget (scope : Scope) (receiver : Expr) (emission : Emission) :
    Lower (CallKind × CallTarget) :=
  match receiver.stripped with
  | .this _ => pure (.virtual, .this)
  | .name _ className =>
    if (scope.lookup? className).isNone && scope.table.isKnownClass className then
      pure (.static, .ofClass className)
    else onValue emission
  | _ => onValue emission

/-- Compute the argument for a parameter that takes all trailing arguments: a single one that is
already the array is passed on, others are packed. -/
def restOperand (scope : Scope) (param : Binding) (trailing : List Argument) : Lower Operand :=
  let packed := pack scope (param.ty.element?.getD .int) (trailing.map Argument.emission)
  match trailing with
  | [single] => if single.ty = param.ty then single.emission.value param.ty else packed
  | _ => packed

/-- Compute the arguments of a call, left to right. -/
def operands (scope : Scope) (callee : Option Signature) (args : List Argument) :
    Lower (List Operand) :=
  match callee with
  | none => args.mapM Argument.bare
  | some signature => do
    let fixed ← (args.zip (signature.params.take signature.fixedArity)).mapM fun (arg, param) =>
      arg.emission.value param.ty
    let trailing := args.drop signature.fixedArity
    match signature.restParam? with
    | some param => return fixed ++ [← restOperand scope param trailing]
    | none => return fixed ++ (← trailing.mapM Argument.bare)

/-- Lower a call up to the instruction itself: first what it is made on, then the arguments. A
call that binds to no method of the class has the type that is asked for. -/
def invoke (scope : Scope) (target : Lower (CallKind × CallTarget)) (callee : Option Signature)
    (method : String) (args : List Argument) (expected : Ty) : Lower Call := do
  let (kind, callTarget) ← target
  let argOperands ← operands scope callee args
  let returnType := (callee.map Signature.returnType).getD expected
  return ⟨kind, callTarget, method, argOperands, returnType⟩

/-- The value of a call, which must have one. -/
def callValue (scope : Scope) (invocation : Ty → Lower Call) : Emission :=
  ofValue fun expected => do
    let call ← invocation expected
    if call.returnType.isVoid || call.returnType.isUnknown then
      fail (.noCallValue call.returnType call.method)
    else store scope (.call call) call.returnType

end Emission

/-! ### All expressions -/

namespace Scope

open Emission

mutual

/-- How to lower an expression. -/
def emission (scope : Scope) (expr : Expr) : Emission :=
  match expr with
  | .literal _ value => .literal value
  | .name pos text => .name scope pos text
  | .this _ => .ofValue fun _ => pure (.this scope.table.classType)
  | .binary _ op left right => .binary scope op (scope.emission left) (scope.emission right)
  | .not _ operand => .not scope (scope.emission operand)
  | .call _ none method args =>
    .callValue scope
      (invoke scope (implicitTarget scope method) (scope.callee? none method) method
        (scope.arguments args))
  | .call _ (some receiver) method args =>
    .callValue scope
      (invoke scope (explicitTarget scope receiver (scope.emission receiver))
        (scope.callee? (some receiver) method) method (scope.arguments args))
  | .newObject _ className => .newObject scope className
  | .newArray _ size => .newArray scope (scope.emission size)
  | .index _ array position => .index scope (scope.emission array) (scope.emission position)
  | .length _ array => .length scope (scope.emission array)
  | .arrayLiteral _ elements =>
    .ofValue fun _ => pack scope .int ((scope.arguments elements).map Argument.emission)
  | .paren _ inner => scope.emission inner
termination_by structural expr

/-- How to lower each of some arguments. -/
def arguments (scope : Scope) (exprs : List Expr) : List Argument :=
  match exprs with
  | [] => []
  | expr :: rest => ⟨scope.typeOf expr, scope.emission expr⟩ :: scope.arguments rest
termination_by structural exprs

end

/-- What a call is made on. -/
def target (scope : Scope) (receiver : Option Expr) (method : String) :
    Lower (CallKind × CallTarget) :=
  match receiver with
  | none => implicitTarget scope method
  | some expr => explicitTarget scope expr (scope.emission expr)

/-- Lower a call up to the instruction itself. -/
def invocation (scope : Scope) (receiver : Option Expr) (method : String) (args : List Expr) :
    Ty → Lower Call :=
  invoke scope (scope.target receiver method) (scope.callee? receiver method) method
    (scope.arguments args)

/-- Compute the value of an expression. -/
def lowerValue (scope : Scope) (expr : Expr) (expected : Ty) : Lower Operand :=
  (scope.emission expr).value expected

/-- Jump to the first place if an expression holds, else to the second. -/
def lowerJump (scope : Scope) (expr : Expr) (onTrue onFalse : Label) : Lower Unit :=
  (scope.emission expr).jump onTrue onFalse

theorem arguments_eq_map (scope : Scope) (exprs : List Expr) :
    scope.arguments exprs =
      exprs.map fun expr => ⟨scope.typeOf expr, scope.emission expr⟩ := by
  induction exprs with
  | nil => rfl
  | cons expr rest inductionHypothesis => rw [arguments, inductionHypothesis, List.map_cons]

/-- The value of a call is the value of its invocation, with or without a receiver. -/
theorem emission_call (scope : Scope) (pos : Pos) (receiver : Option Expr) (method : String)
    (args : List Expr) :
    scope.emission (.call pos receiver method args) =
      callValue scope (scope.invocation receiver method args) := by
  cases receiver <;> rw [emission] <;> rfl

/-- Parentheses do not change how an expression is lowered. -/
theorem emission_stripped (scope : Scope) (expr : Expr) :
    scope.emission expr.stripped = scope.emission expr := by
  induction expr with
  | paren pos inner inductionHypothesis =>
    rw [Expr.stripped_paren, inductionHypothesis, emission]
  | _ => rfl

end Scope

end JavaMinus
