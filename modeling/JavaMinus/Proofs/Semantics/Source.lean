/-
This file gives source programs their meaning. Expressions are evaluated from
left to right, and the logical operators leave their right operand alone when
the left one decides. An array literal is allocated before its elements are
evaluated, and each element is stored before the next one is evaluated.

Only what a method does by itself has a meaning here: a call is stuck, and so is
a name that stands for no variable. An expression changes nothing but the heap,
so it is evaluated in an environment that stays as it is. Statements change the
environment too. A loop is given a number of rounds it may make at most; a run
that needs more has no ending for that number, and it ends if it has an ending
for some number.
-/

import JavaMinus.ClassTable
import JavaMinus.Proofs.Semantics.State

namespace JavaMinus

namespace Scope

/-! ### Expressions -/

/-- The value that a name stands for. -/
def readName (scope : Scope) (env : Env) (name : String) : Exec Value :=
  match scope.lookup? name with
  | some (.field binding) => pure (env.fields binding.name)
  | some _ => pure (env.vars name)
  | none => .stuck

theorem readName_of_var (scope : Scope) {env : Env} {name : String} {found : Variable}
    (resolved : scope.lookup? name = some found) (notField : found.isField = false) :
    scope.readName env name = pure (env.vars name) := by
  rw [readName, resolved]
  cases found with
  | field binding => cases notField
  | param position binding | loc binding => rfl

mutual

/-- The value of an expression. -/
def evaluate (scope : Scope) (env : Env) (expr : Expr) : Exec Value :=
  match expr with
  | .literal _ (.int value) => pure (.word value)
  | .literal _ (.bool value) => pure (.ofBool value)
  | .name _ name => scope.readName env name
  | .this _ => pure (.object env.self)
  | .binary _ (.arith op) left right => do
    let first ← scope.evaluate env left
    let second ← scope.evaluate env right
    arithmetic op first second
  | .binary _ .less left right => do
    let first ← scope.evaluate env left
    let second ← scope.evaluate env right
    return .ofBool (← isLess first second)
  | .binary _ .and left right => do
    if ← isTrue (← scope.evaluate env left) then
      return .ofBool (← isTrue (← scope.evaluate env right))
    else return .ofBool false
  | .binary _ .or left right => do
    if ← isTrue (← scope.evaluate env left) then return .ofBool true
    else return .ofBool (← isTrue (← scope.evaluate env right))
  | .not _ operand => do return .ofBool !(← isTrue (← scope.evaluate env operand))
  | .call _ _ _ _ => .stuck
  | .newObject _ className => JavaMinus.newObject className
  | .newArray _ size => do JavaMinus.newArray (← scope.evaluate env size)
  | .index _ array position => do
    let arrayValue ← scope.evaluate env array
    let positionValue ← scope.evaluate env position
    loadElement arrayValue positionValue
  | .length _ array => do arrayLength (← scope.evaluate env array)
  | .arrayLiteral _ elements => do
    let array ← JavaMinus.newArray (.word (Int32.ofNat elements.length))
    scope.evaluateInto env array 0 elements
    return array
  | .paren _ inner => scope.evaluate env inner
termination_by structural expr

/-- Evaluate expressions and store their values into an array from a position on. -/
def evaluateInto (scope : Scope) (env : Env) (array : Value) (position : Nat)
    (elements : List Expr) : Exec Unit :=
  match elements with
  | [] => pure ()
  | element :: rest => do
    let value ← scope.evaluate env element
    storeElement array (.word (Int32.ofNat position)) value
    scope.evaluateInto env array (position + 1) rest
termination_by structural elements

end

/-- Whether an expression holds. -/
def test (scope : Scope) (env : Env) (expr : Expr) : Exec Bool := do
  isTrue (← scope.evaluate env expr)

end Scope

/-! ### Statements -/

/-- How a run ends, and in which state. There is none for a run that is stuck, or that makes more
rounds than it may. -/
abbrev Outcome : Type := Option (Ending × State)

namespace Outcome

/-- Go on behind a statement, if control reaches its end. -/
def andThen (first : Outcome) (next : State → Outcome) : Outcome :=
  match first with
  | some (.fellThrough, state) => next state
  | other => other

/-- Let an action change the heap and go on with its result; a trap ends the run. -/
def after {α : Type} (state : State) (action : Exec α) (next : α → State → Outcome) : Outcome :=
  state.act action (fun trap state => (.stopped trap, state)) next

/-- Repeat a body as long as a condition holds, for at most this number of rounds. -/
def repeatWhile (holds : Env → Exec Bool) (body : State → Outcome) : Nat → State → Outcome
  | 0, _ => none
  | rounds + 1, state =>
    after state (holds state.toEnv) fun again state =>
      if again then (body state).andThen (repeatWhile holds body rounds)
      else some (.fellThrough, state)

end Outcome

namespace Scope

open Outcome

/-- Assign the value of an expression to a variable, a field or an element. -/
def executeAssign (scope : Scope) (target value : Expr) (state : State) : Outcome :=
  match target.stripped with
  | .name _ name =>
    match scope.lookup? name with
    | some (.field binding) =>
      after state (scope.evaluate state.toEnv value) fun result state =>
        some (.fellThrough, state.setField binding.name result)
    | some _ =>
      after state (scope.evaluate state.toEnv value) fun result state =>
        some (.fellThrough, state.setVar name result)
    | none => none
  | .index _ array position =>
    let action := do
      let arrayValue ← scope.evaluate state.toEnv array
      let positionValue ← scope.evaluate state.toEnv position
      let result ← scope.evaluate state.toEnv value
      storeElement arrayValue positionValue result
    after state action fun _ state => some (.fellThrough, state)
  | _ => none

/-- Return from the method. A method that yields nothing drops the value. -/
def executeReturn (scope : Scope) (value : Option Expr) (state : State) : Outcome :=
  match value with
  | none => some (.returned none, state)
  | some expr =>
    after state (scope.evaluate state.toEnv expr) fun result state =>
      some (.returned (if scope.method.returnType.isVoid then none else some result), state)

mutual

/-- Run a statement, each loop for at most this number of rounds. -/
def execute (scope : Scope) (rounds : Nat) (stmt : Stmt) (state : State) : Outcome :=
  match stmt with
  | .block _ body => scope.executeBody rounds body state
  | .ifElse _ condition thenBranch elseBranch =>
    after state (scope.test state.toEnv condition) fun holds state =>
      if holds then scope.execute rounds thenBranch state
      else
        match elseBranch with
        | none => some (.fellThrough, state)
        | some other => scope.execute rounds other state
  | .whileLoop _ condition body =>
    repeatWhile (fun env => scope.test env condition) (scope.execute rounds body) rounds state
  | .eval _ expr =>
    after state (scope.evaluate state.toEnv expr) fun _ state => some (.fellThrough, state)
  | .assign _ target value => scope.executeAssign target value state
  | .ret _ value => scope.executeReturn value state
termination_by structural stmt

/-- Run statements one after the other. -/
def executeBody (scope : Scope) (rounds : Nat) (body : List Stmt) (state : State) : Outcome :=
  match body with
  | [] => some (.fellThrough, state)
  | stmt :: rest => (scope.execute rounds stmt state).andThen (scope.executeBody rounds rest)
termination_by structural body

end

/-! ### What tests do -/

theorem test_and (scope : Scope) (env : Env) (pos : Pos) (left right : Expr) :
    scope.test env (.binary pos .and left right) =
      scope.test env left >>= fun holds => if holds then scope.test env right else pure false := by
  simp only [test, evaluate, bind_assoc]
  refine bind_congr fun first => bind_congr fun holds => ?_
  cases holds <;> simp

theorem test_or (scope : Scope) (env : Env) (pos : Pos) (left right : Expr) :
    scope.test env (.binary pos .or left right) =
      scope.test env left >>= fun holds => if holds then pure true else scope.test env right := by
  simp only [test, evaluate, bind_assoc]
  refine bind_congr fun first => bind_congr fun holds => ?_
  cases holds <;> simp

theorem test_not (scope : Scope) (env : Env) (pos : Pos) (operand : Expr) :
    scope.test env (.not pos operand) =
      scope.test env operand >>= fun holds => pure !holds := by
  simp [test, evaluate]

theorem test_bool (scope : Scope) (env : Env) (pos : Pos) (value : Bool) :
    scope.test env (.literal pos (.bool value)) = pure value := by
  simp [test, evaluate]

theorem test_less (scope : Scope) (env : Env) (pos : Pos) (left right : Expr) :
    scope.test env (.binary pos .less left right) =
      scope.evaluate env left >>= fun first =>
        scope.evaluate env right >>= fun second => isLess first second := by
  simp [test, evaluate]

end Scope

/-- How a method ends whose body ends this way: one that yields nothing need not return. -/
def Signature.ending (method : Signature) : Ending → Ending
  | .fellThrough => if method.returnType.isVoid then .returned none else .fellThrough
  | other => other

end JavaMinus
