/-
This file shows that lowering never counts backwards, not even when it fails. A
fault leaves the counters where they were when it was raised, and what is lowered
next goes on from there; so everything that is lowered later takes its names from
a later range, whatever became of what was lowered before.

Each way to build a step out of others keeps this up, and lowering is built from
a few steps that clearly have it.
-/

import JavaMinus.Proofs.Lowering.Freshness

namespace JavaMinus

open Counters

/-! ### Steps -/

namespace Lower

variable {α β : Type}

/-- Whatever comes of the step, the counters stay or grow. -/
def Advances (step : Lower α) : Prop := ∀ counters, Grows counters (step counters).counters

theorem advances_pure (result : α) : (pure result : Lower α).Advances := fun counters =>
  .refl counters

theorem advances_emit (instr : Instr) : (emit instr).Advances := fun counters => .refl counters

theorem advances_fail (fault : Fault) : (fail fault : Lower α).Advances := fun counters =>
  .refl counters

theorem advances_labelId : labelId.Advances := grows_afterLabel

theorem advances_temp (scope : Scope) : (temp scope).Advances := grows_afterTemp scope

theorem advances_store (scope : Scope) (rhs : Instr) (ty : Ty) : (store scope rhs ty).Advances :=
  grows_afterTemp scope

/-- A sequence advances if both parts do; if the first one fails, it is all that is done. -/
theorem Advances.bind {first : Lower α} {next : α → Lower β} (start : first.Advances)
    (rest : ∀ result, (next result).Advances) : (first >>= next).Advances := by
  intro counters
  cases outcome : (first counters).outcome with
  | ok result =>
    rw [bind_of_ok outcome]
    exact (start counters).trans (rest result _)
  | error fault =>
    rw [bind_of_error outcome]
    exact start counters

theorem Advances.joining {body : Lower Unit} (advances : body.Advances) (target : Label) :
    (joining target body).Advances := by
  intro counters
  rw [Lower.joining]
  cases outcome : (body counters).outcome with
  | error fault => exact advances counters
  | ok result =>
    simp only
    split <;> exact advances counters

theorem advances_mapM {items : List α} {step : α → Lower β}
    (advances : ∀ item ∈ items, (step item).Advances) : (items.mapM step).Advances := by
  induction items with
  | nil => exact advances_pure []
  | cons item rest inductionHypothesis =>
    obtain ⟨first, others⟩ := List.forall_mem_cons.mp advances
    rw [List.mapM_cons]
    exact first.bind fun _ => (inductionHypothesis others).bind fun _ => advances_pure _

end Lower

open Lower

/-! ### Expressions -/

namespace Emission

variable {scope : Scope}

/-- Both ways to lower an expression advance. -/
structure Advances (emission : Emission) : Prop where
  value : ∀ expected, (emission.value expected).Advances
  jump : ∀ onTrue onFalse, (emission.jump onTrue onFalse).Advances

theorem advances_ofValue {value : Ty → Lower Operand}
    (advances : ∀ expected, (value expected).Advances) : (ofValue value).Advances where
  value := advances
  jump _ _ := (advances .boolean).bind fun _ => (advances_emit _).bind fun _ => advances_emit _

theorem advances_ofJump {jump : Label → Label → Lower Unit}
    (advances : ∀ onTrue onFalse, (jump onTrue onFalse).Advances) :
    (ofJump scope jump).Advances where
  value _ := by
    refine advances_labelId.bind fun _ => (advances_temp scope).bind fun _ => ?_
    refine (advances _ _).bind fun _ => (advances_emit _).bind fun _ => ?_
    refine (advances_emit _).bind fun _ => (advances_emit _).bind fun _ => ?_
    refine (advances_emit _).bind fun _ => (advances_emit _).bind fun _ => ?_
    exact (advances_emit _).bind fun _ => advances_pure _
  jump := advances

theorem advances_literal (value : Literal) : (literal value).Advances := by
  cases value with
  | int value => exact advances_ofValue fun _ => advances_pure _
  | bool value => exact ⟨fun _ => advances_pure _, fun _ _ => advances_emit _⟩

theorem advances_name (pos : Pos) (name : String) :
    (Emission.name scope pos name).Advances := by
  refine advances_ofValue fun _ => ?_
  split
  · exact advances_pure _
  · exact advances_pure _
  · exact advances_fail _

theorem advances_binary {left right : Emission} (op : BinaryOp) (first : left.Advances)
    (second : right.Advances) : (binary scope op left right).Advances := by
  cases op with
  | arith op =>
    exact advances_ofValue fun _ => (first.value _).bind fun _ => (second.value _).bind fun _ =>
      advances_store _ _ _
  | less =>
    exact advances_ofJump fun _ _ => (first.value _).bind fun _ => (second.value _).bind fun _ =>
      (advances_emit _).bind fun _ => advances_emit _
  | and | or =>
    exact advances_ofJump fun _ _ => advances_labelId.bind fun _ => (first.jump _ _).bind fun _ =>
      (advances_emit _).bind fun _ => second.jump _ _

theorem advances_newObject (className : String) : (newObject scope className).Advances :=
  advances_ofValue fun _ => (advances_store _ _ _).bind fun _ => (advances_emit _).bind fun _ =>
    advances_pure _

theorem advances_fill {items : List Emission} (advances : ∀ item ∈ items, item.Advances)
    (array : Operand) (element : Ty) (position : Nat) :
    (fill array element position items).Advances := by
  induction items generalizing position with
  | nil => exact advances_pure ()
  | cons item rest inductionHypothesis =>
    obtain ⟨first, others⟩ := List.forall_mem_cons.mp advances
    exact (first.value element).bind fun _ => (advances_emit _).bind fun _ =>
      inductionHypothesis others (position + 1)

theorem advances_pack {items : List Emission} (advances : ∀ item ∈ items, item.Advances)
    (element : Ty) : (pack scope element items).Advances :=
  (advances_store _ _ _).bind fun array => (advances_fill advances array element 0).bind fun _ =>
    advances_pure _

/-! ### Calls -/

theorem advances_implicitTarget (method : String) : (implicitTarget scope method).Advances := by
  rw [implicitTarget]
  split
  · split
    · exact advances_pure _
    · split
      · exact advances_fail _
      · exact advances_pure _
  · split <;> exact advances_pure _

theorem advances_explicitTarget (receiver : Expr) {emission : Emission}
    (advances : emission.Advances) : (explicitTarget scope receiver emission).Advances := by
  have byValue : (onValue emission).Advances :=
    (advances.value .unknown).bind fun _ => advances_pure _
  rw [explicitTarget]
  split
  · exact advances_pure _
  · split
    · exact advances_pure _
    · exact byValue
  · exact byValue

theorem advances_restOperand {trailing : List Argument}
    (advances : ∀ arg ∈ trailing, arg.emission.Advances) (param : Binding) :
    (restOperand scope param trailing).Advances := by
  have packed : (pack scope (param.ty.element?.getD .int)
      (trailing.map Argument.emission)).Advances :=
    advances_pack (List.forall_mem_map.mpr advances) _
  rw [restOperand.eq_def]
  split
  · split
    · exact (List.forall_mem_singleton.mp advances).value _
    · exact packed
  · exact packed

theorem advances_operands {args : List Argument}
    (advances : ∀ arg ∈ args, arg.emission.Advances) (callee : Option Signature) :
    (operands scope callee args).Advances := by
  have advancesBare : ∀ count, ((args.drop count).mapM Argument.bare).Advances := fun count =>
    advances_mapM fun arg member => (advances arg (List.mem_of_mem_drop member)).value _
  cases callee with
  | none => exact advancesBare 0
  | some signature =>
    rw [operands]
    refine (advances_mapM fun item member => ?_).bind fun fixed => ?_
    · exact (advances item.1 (List.of_mem_zip member).1).value _
    · split
      · next param _ =>
        have trailing : ∀ arg ∈ args.drop signature.fixedArity, arg.emission.Advances :=
          fun arg member => advances arg (List.mem_of_mem_drop member)
        exact (advances_restOperand trailing param).bind fun _ => advances_pure _
      · exact (advancesBare signature.fixedArity).bind fun _ => advances_pure _

end Emission

namespace Scope

open Emission

variable {scope : Scope}

theorem advances_invocation {receiver : Option Expr} {args : List Expr}
    (advancesReceiver : ∀ expr, receiver = some expr → (scope.emission expr).Advances)
    (advancesArgs : ∀ arg ∈ args, (scope.emission arg).Advances) (method : String)
    (expected : Ty) : (scope.invocation receiver method args expected).Advances := by
  have target : (scope.target receiver method).Advances := by
    cases receiver with
    | none => exact advances_implicitTarget method
    | some expr => exact advances_explicitTarget expr (advancesReceiver expr rfl)
  have arguments : ∀ arg ∈ scope.arguments args, arg.emission.Advances := by
    rw [arguments_eq_map, List.forall_mem_map]
    exact advancesArgs
  rw [invocation, invoke]
  exact target.bind fun _ => (advances_operands arguments _).bind fun _ => advances_pure _

theorem advances_emission (scope : Scope) (expr : Expr) : (scope.emission expr).Advances := by
  induction expr with
  | literal pos value =>
    rw [emission]
    exact advances_literal value
  | name pos text =>
    rw [emission]
    exact advances_name pos text
  | this pos =>
    rw [emission]
    exact advances_ofValue fun _ => advances_pure _
  | binary pos op left right advancesLeft advancesRight =>
    rw [emission]
    exact advances_binary op advancesLeft advancesRight
  | not pos operand advancesOperand =>
    rw [emission]
    exact advances_ofJump fun _ _ => advancesOperand.jump _ _
  | call pos receiver method args advancesReceiver advancesArgs =>
    rw [emission_call]
    refine advances_ofValue fun expected =>
      (advances_invocation advancesReceiver advancesArgs method expected).bind fun _ => ?_
    split
    · exact advances_fail _
    · exact advances_store _ _ _
  | newObject pos className =>
    rw [emission]
    exact advances_newObject className
  | newArray pos size advancesSize =>
    rw [emission]
    exact advances_ofValue fun _ => (advancesSize.value _).bind fun _ => advances_store _ _ _
  | index pos array position advancesArray advancesPosition =>
    rw [emission]
    exact advances_ofValue fun _ => (advancesArray.value _).bind fun _ =>
      (advancesPosition.value _).bind fun _ => advances_store _ _ _
  | length pos array advancesArray =>
    rw [emission]
    exact advances_ofValue fun _ => (advancesArray.value _).bind fun _ => advances_store _ _ _
  | arrayLiteral pos elements advancesElements =>
    rw [emission, map_emission_arguments]
    exact advances_ofValue fun _ => advances_pack (List.forall_mem_map.mpr advancesElements) .int
  | paren pos inner advancesInner =>
    rw [emission]
    exact advancesInner

/-! ### Statements -/

theorem advances_lowerValue (scope : Scope) (expr : Expr) (expected : Ty) :
    (scope.lowerValue expr expected).Advances :=
  (scope.advances_emission expr).value expected

theorem advances_lowerJump (scope : Scope) (expr : Expr) (onTrue onFalse : Label) :
    (scope.lowerJump expr onTrue onFalse).Advances :=
  (scope.advances_emission expr).jump onTrue onFalse

theorem advances_lowerEval (scope : Scope) (expr : Expr) : (scope.lowerEval expr).Advances := by
  rw [lowerEval]
  split
  · refine (advances_invocation (fun expr _ => scope.advances_emission expr)
      (fun arg _ => scope.advances_emission arg) _ _).bind fun _ => ?_
    split <;> exact advances_emit _
  · exact (scope.advances_lowerValue _ _).bind fun _ => advances_pure _

theorem advances_lowerAssign (scope : Scope) (target value : Expr) :
    (scope.lowerAssign target value).Advances := by
  rw [lowerAssign]
  split
  · split
    · exact (scope.advances_lowerValue _ _).bind fun _ => advances_emit _
    · exact (scope.advances_lowerValue _ _).bind fun _ => advances_emit _
    · exact advances_fail _
  · exact (scope.advances_lowerValue _ _).bind fun _ => (scope.advances_lowerValue _ _).bind fun _ =>
      (scope.advances_lowerValue _ _).bind fun _ => advances_emit _
  · exact advances_fail _

theorem advances_lowerReturn (scope : Scope) (value : Option Expr) :
    (scope.lowerReturn value).Advances := by
  cases value with
  | none => exact advances_emit _
  | some expr => exact (scope.advances_lowerValue _ _).bind fun _ => advances_emit _

/-- Statements one after the other, if each of them advances. -/
theorem advances_body_of {body : List Stmt}
    (advances : ∀ stmt ∈ body, (scope.lowerStmt stmt).Advances) :
    (scope.lowerBody body).Advances := by
  induction body with
  | nil =>
    rw [lowerBody]
    exact advances_pure ()
  | cons stmt rest inductionHypothesis =>
    obtain ⟨first, others⟩ := List.forall_mem_cons.mp advances
    rw [lowerBody]
    exact first.bind fun _ => inductionHypothesis others

theorem advances_lowerStmt (scope : Scope) (stmt : Stmt) : (scope.lowerStmt stmt).Advances := by
  induction stmt with
  | block pos body inductionHypothesis =>
    rw [lowerStmt]
    exact advances_body_of inductionHypothesis
  | ifElse pos condition thenBranch elseBranch thenHypothesis elseHypothesis =>
    rw [lowerStmt]
    refine advances_labelId.bind fun _ => (scope.advances_lowerJump _ _ _).bind fun _ => ?_
    refine (advances_emit _).bind fun _ => (thenHypothesis.joining _).bind fun _ => ?_
    refine (advances_emit _).bind fun _ => ?_
    cases elseBranch with
    | none => exact advances_emit _
    | some other => exact (elseHypothesis other rfl).bind fun _ => advances_emit _
  | whileLoop pos condition body inductionHypothesis =>
    rw [lowerStmt]
    refine advances_labelId.bind fun _ => (advances_emit _).bind fun _ => ?_
    refine (scope.advances_lowerJump _ _ _).bind fun _ => (advances_emit _).bind fun _ => ?_
    exact inductionHypothesis.bind fun _ => (advances_emit _).bind fun _ => advances_emit _
  | eval pos expr =>
    rw [lowerStmt]
    exact scope.advances_lowerEval expr
  | assign pos target value =>
    rw [lowerStmt]
    exact scope.advances_lowerAssign target value
  | ret pos value =>
    rw [lowerStmt]
    exact scope.advances_lowerReturn value

theorem advances_lowerBody (scope : Scope) (body : List Stmt) : (scope.lowerBody body).Advances :=
  advances_body_of fun stmt _ => scope.advances_lowerStmt stmt

/-! ### Methods and classes -/

/-- Lowering a method moves the counters on, also if it fails. -/
theorem grows_lowerMethod (scope : Scope) (body : List Stmt) (counters : Counters) :
    Grows counters (scope.lowerMethod body counters).2 :=
  scope.advances_lowerBody body counters

theorem grows_lowerMethods (decls : List (MethodDecl × Scope)) (counters : Counters) :
    Grows counters (lowerMethods decls counters).2 := by
  induction decls generalizing counters with
  | nil => exact .refl counters
  | cons decl rest inductionHypothesis =>
    have first := decl.2.grows_lowerMethod decl.1.body counters
    rw [lowerMethods]
    split
    · exact first
    · exact first.trans (inductionHypothesis _)

end Scope

namespace ClassTable

/-- Lowering a class moves the counters on, also if it fails. -/
theorem grows_lower (table : ClassTable) (program : Program) (counters : Counters) :
    Grows counters (table.lower program counters).2 := by
  rw [lower]
  split
  · exact .refl counters
  · exact Scope.grows_lowerMethods _ counters

end ClassTable

end JavaMinus
