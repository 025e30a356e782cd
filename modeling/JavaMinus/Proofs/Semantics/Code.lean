/-
This file gives three-address code its meaning. A run stands before an
instruction, or has ended; an instruction leads to the next one, to a label, or
to an end. Labels are found by name. A run that comes to the end of the code
without a return has fallen through.

Operands are read where they are used. A constructor only marks that the object
is there; any other call is stuck, and so is an instruction that makes sense
only as the right-hand side of an assignment.
-/

import Mathlib.Logic.Relation
import JavaMinus.Code.Instr
import JavaMinus.Proofs.Semantics.State

namespace JavaMinus

/-! ### Operands and right-hand sides -/

/-- The value of an operand. -/
def Operand.read (env : Env) : Operand → Value
  | .literal value _ => .word value
  | .var name _ => env.vars name
  | .field name _ => env.fields name
  | .this _ => .object env.self

/-- Whether a branch is taken. -/
def Condition.test (env : Env) : Condition → Exec Bool
  | .less left right => isLess (left.read env) (right.read env)
  | .nonZero operand => isTrue (operand.read env)

/-- The value of a right-hand side. Only the fields of the receiver can be read. -/
def Instr.compute (env : Env) : Instr → Exec Value
  | .value operand => pure (operand.read env)
  | .arith op left right _ => arithmetic op (left.read env) (right.read env)
  | .newObject className => JavaMinus.newObject className
  | .newArray size => JavaMinus.newArray (size.read env)
  | .getField receiver field _ =>
    if receiver.read env = .object env.self then pure (env.fields field) else .stuck
  | .loadElement array position => JavaMinus.loadElement (array.read env) (position.read env)
  | .arrayLength array => JavaMinus.arrayLength (array.read env)
  | _ => .stuck

/-! ### Runs -/

/-- Where a run stands. -/
inductive Point
  /-- Before the instruction at a position. -/
  | before (position : Nat) (state : State)
  | ended (ending : Ending) (state : State)

/-- The position of a label. -/
def labelPosition? (code : List Instr) (label : Label) : Option Nat :=
  code.findIdx? (· == .label label)

/-- Go on at a label. -/
def jumpTo (code : List Instr) (label : Label) (state : State) : Option Point :=
  (labelPosition? code label).map fun position => .before position state

/-- Let an action change the heap and go on with its result; a trap ends the run. -/
def proceed {α : Type} (state : State) (action : Exec α) (next : α → State → Option Point) :
    Option Point :=
  state.act action (fun trap state => .ended (.stopped trap) state) next

/-- Where the instruction at a position leads. -/
def Instr.perform (code : List Instr) (position : Nat) (state : State) : Instr → Option Point
  | .assign dest rhs _ =>
    proceed state (rhs.compute state.toEnv) fun value state =>
      some (.before (position + 1) (state.setVar dest value))
  | .putField receiver field _ stored =>
    if receiver.read state.toEnv = .object state.self then
      some (.before (position + 1) (state.setField field (stored.read state.toEnv)))
    else none
  | .storeElement array index stored =>
    proceed state
      (JavaMinus.storeElement (array.read state.toEnv) (index.read state.toEnv)
        (stored.read state.toEnv))
      fun _ state => some (.before (position + 1) state)
  | .label _ => some (.before (position + 1) state)
  | .goto target => jumpTo code target state
  | .branch condition target =>
    proceed state (condition.test state.toEnv) fun taken state =>
      if taken then jumpTo code target state else some (.before (position + 1) state)
  | .call invocation =>
    match invocation.kind, invocation.target with
    | .constructor, .receiver operand =>
      match operand.read state.toEnv with
      | .object _ => some (.before (position + 1) state)
      | _ => none
    | _, _ => none
  | .ret result ty =>
    some (.ended (.returned (if ty.isVoid then none else result.map (Operand.read state.toEnv)))
      state)
  | _ => none

/-- Where a run goes next. -/
def advance (code : List Instr) : Point → Option Point
  | .before position state =>
    match code[position]? with
    | some instr => instr.perform code position state
    | none => some (.ended .fellThrough state)
  | .ended _ _ => none

/-- Where a run can come to. -/
def Reaches (code : List Instr) : Point → Point → Prop :=
  Relation.ReflTransGen fun point next => advance code point = some next

/-! ### Steps of a run -/

theorem Reaches.trans {code : List Instr} {first second third : Point}
    (start : Reaches code first second) (rest : Reaches code second third) :
    Reaches code first third :=
  Relation.ReflTransGen.trans start rest

theorem advance_before {code : List Instr} {position : Nat} {instr : Instr}
    (fetched : code[position]? = some instr) (state : State) :
    advance code (.before position state) = instr.perform code position state := by
  rw [advance, fetched]

/-- One instruction is a run. -/
theorem Reaches.single {code : List Instr} {position : Nat} {instr : Instr} {state : State}
    {next : Point} (fetched : code[position]? = some instr)
    (performed : instr.perform code position state = some next) :
    Reaches code (.before position state) next :=
  Relation.ReflTransGen.single ((advance_before fetched state).trans performed)

/-- An instruction in front of a run. -/
theorem Reaches.cons {code : List Instr} {position : Nat} {instr : Instr} {state : State}
    {next last : Point} (fetched : code[position]? = some instr)
    (performed : instr.perform code position state = some next) (rest : Reaches code next last) :
    Reaches code (.before position state) last :=
  (Reaches.single fetched performed).trans rest

/-- A run has only one end. -/
theorem Reaches.ended_unique {code : List Instr} {start : Point} {first second : Ending}
    {firstState secondState : State} (one : Reaches code start (.ended first firstState))
    (other : Reaches code start (.ended second secondState)) :
    first = second ∧ firstState = secondState := by
  induction one using Relation.ReflTransGen.head_induction_on with
  | refl =>
    rcases Relation.ReflTransGen.cases_head other with same | ⟨next, step, -⟩
    · cases same
      exact ⟨rfl, rfl⟩
    · exact absurd step (by simp [advance])
  | head step rest inductionHypothesis =>
    rcases Relation.ReflTransGen.cases_head other with same | ⟨next, otherStep, otherRest⟩
    · subst same
      exact absurd step (by simp [advance])
    · rw [step, Option.some_inj] at otherStep
      subst otherStep
      exact inductionHypothesis otherRest

/-! ### Where code stands -/

/-- Code that stands at a position of other code. -/
def StandsAt {α : Type} (code : List α) (position : Nat) (part : List α) : Prop :=
  part <+: code.drop position

namespace StandsAt

variable {α : Type} {code part first second : List α} {position : Nat}

theorem whole (code : List α) : StandsAt code 0 code := List.prefix_refl _

theorem left (stands : StandsAt code position (first ++ second)) : StandsAt code position first :=
  (List.prefix_append first second).trans stands

theorem right (stands : StandsAt code position (first ++ second)) :
    StandsAt code (position + first.length) second := by
  obtain ⟨rest, split⟩ := stands
  refine ⟨rest, ?_⟩
  rw [← List.drop_drop, ← split, List.append_assoc, List.drop_left]

theorem head {instr : α} (stands : StandsAt code position (instr :: part)) :
    code[position]? = some instr := by
  obtain ⟨rest, split⟩ := stands
  have found : (code.drop position)[0]? = some instr := by
    rw [← split]
    rfl
  rwa [List.getElem?_drop, Nat.add_zero] at found

theorem tail {instr : α} (stands : StandsAt code position (instr :: part)) :
    StandsAt code (position + 1) part := by
  rw [← List.singleton_append] at stands
  exact stands.right

/-- The instructions of the code that stands there. -/
theorem getElem? {offset : Nat} (stands : StandsAt code position part)
    (inside : offset < part.length) : code[position + offset]? = part[offset]? := by
  obtain ⟨rest, split⟩ := stands
  rw [← List.getElem?_drop, ← split, List.getElem?_append_left inside]

/-- Code inside code that stands there. -/
theorem trans {offset : Nat} {inner : List α} (stands : StandsAt code position part)
    (inside : StandsAt part offset inner) : StandsAt code (position + offset) inner := by
  obtain ⟨rest, split⟩ := stands
  refine List.IsPrefix.trans inside ?_
  rw [← List.drop_drop, ← split, List.drop_append]
  exact List.prefix_append _ _

/-- The instruction behind some code. -/
theorem behind {instr : α} (stands : StandsAt code position (first ++ instr :: second)) :
    code[position + first.length]? = some instr :=
  stands.right.head

/-- The position behind code with an instruction in front. -/
theorem finish_cons (position : Nat) (instr : α) (rest : List α) :
    position + (instr :: rest).length = position + 1 + rest.length := by
  rw [List.length_cons]
  omega

/-- The position behind code with an instruction in it. -/
theorem finish_around (position : Nat) (first : List α) (instr : α) (rest : List α) :
    position + (first ++ instr :: rest).length = position + first.length + 1 + rest.length := by
  rw [List.length_append, List.length_cons]
  omega

/-- The instruction behind two pieces of code. -/
theorem behindBoth {instr : α} {rest : List α}
    (stands : StandsAt code position (first ++ second ++ instr :: rest)) :
    code[position + first.length + second.length]? = some instr := by
  rw [← stands.behind, List.length_append, Nat.add_assoc]

end StandsAt

end JavaMinus
