/-
This file says what a report without errors promises about the types in lowered
code. Where no expression has an unknown type, the checks on operands, conditions,
accesses, arguments, assignments and returns cover everything but the gaps: no
check looks at the size of a new array, at the elements of an array literal that
is not assigned, at the element type of an array that is indexed or packed, or at
the array that a literal becomes when it is assigned. So the code of a method is
typed exactly if each node of its body stays out of the gaps.
-/

import JavaMinus.Proofs.Check.Clean
import JavaMinus.Proofs.Lowering.Preservation
import JavaMinus.Proofs.Lowering.Types

namespace JavaMinus

open Observer

/-! ### Checks node by node -/

namespace Observer

/-- What an observer notes at a single node. -/
def onNode {Note : Type} (observer : Observer Note) : Node → List Note
  | .stmt stmt => observer.stmt stmt
  | .condition expr => observer.condition expr
  | .expr expr => observer.expr expr

/-- What holds of all notes holds of those at each node. -/
theorem implies_everyNode {Note : Type} (observer : Observer Note) (each : Note → Prop) :
    observer.Implies each everyNode (fun node => ∀ note ∈ observer.onNode node, each note) where
  stmt _ all := List.forall_mem_singleton.mpr all
  condition _ all := List.forall_mem_singleton.mpr all
  expr _ all := List.forall_mem_singleton.mpr all

end Observer

namespace Check

variable {scope : Scope}

/-- None of these notes is an error. -/
def Silent (notes : List Diagnostic) : Prop := ∀ note ∈ notes, note.isError = false

theorem silent_append {first second : List Diagnostic} :
    Silent (first ++ second) ↔ Silent first ∧ Silent second :=
  List.forall_mem_append

theorem not_silent_error (pos : Pos) (text : String) : ¬ Silent [.error pos text] := by
  intro silent
  cases silent _ (List.mem_singleton_self _)

/-- A check that can only report an error is silent if nothing is wrong. -/
theorem silent_unless {fine : Bool} {pos : Pos} {text : String}
    (silent : Silent (if fine then [] else [.error pos text])) : fine = true := by
  cases fine with
  | true => rfl
  | false => exact absurd silent (not_silent_error pos text)

/-! ### What silent checks promise -/

theorem binary_of_silent {pos : Pos} {op : BinaryOp} {left right : Expr}
    (silent : Silent (operandMisfits scope (.binary pos op left right)))
    (knowsLeft : scope.Knows left) (knowsRight : scope.Knows right) :
    scope.typeOf left = operandType op ∧ scope.typeOf right = operandType op := by
  have fine := silent_unless silent
  rw [Scope.Knows] at knowsLeft knowsRight
  simpa [knowsLeft, knowsRight] using fine

/-- A check of a type that leaves unknown types alone is silent on a known type if that is right. -/
theorem right_of_silent {expr : Expr} {right : Bool} {pos : Pos} {text : String}
    (silent : Silent (if (scope.typeOf expr).isUnknown || right then [] else [.error pos text]))
    (knows : scope.Knows expr) : right = true := by
  have fine := silent_unless silent
  rwa [knows, Bool.false_or] at fine

/-- Operands of a negation and conditions are checked alike. -/
theorem boolean_of_silent {expr : Expr} {pos : Pos} {text : String}
    (silent : Silent (if (scope.typeOf expr).isUnknown || (scope.typeOf expr).isBoolean then []
      else [.error pos text]))
    (knows : scope.Knows expr) : scope.typeOf expr = .boolean :=
  (Ty.eq_boolean_iff _).mpr (right_of_silent silent knows)

theorem index_of_silent (pos : Pos) {array position : Expr}
    (silent : Silent (accessMisfits scope (.index pos array position)))
    (knows : scope.Knows position) : scope.typeOf position = .int :=
  (Ty.eq_int_iff _).mpr (right_of_silent (silent_append.mp silent).2 knows)

/-- Trailing arguments are passed on as an array, or each of them is an element. -/
theorem trailing_of_silent {callee : Signature} (method : String) {trailing : List Expr}
    {param : Binding} (rest : callee.restParam? = some param) (isArray : param.ty.isArray = true)
    (silent : Silent (restMisfits scope callee method trailing)) :
    scope.passes param trailing = true ∨
      ∀ arg ∈ trailing, scope.Knows arg → scope.typeOf arg = .named param.ty.base := by
  have element : callee.restElement? = some (.named param.ty.base) := by
    rw [Signature.restElement?, rest, Option.bind_some, Ty.element?, if_pos isArray]
  simp only [restMisfits, rest, element] at silent
  change Silent (if scope.passes param trailing then [] else _) at silent
  split at silent
  · next passed => exact .inl passed
  · refine .inr fun arg member knows => ?_
    rw [← List.zipIdx_map_fst callee.fixedArity trailing] at member
    obtain ⟨⟨_, position⟩, inTrailing, rfl⟩ := List.mem_map.mp member
    exact beq_iff_eq.mp (right_of_silent (List.forall_mem_flatMap.mp silent _ inTrailing) knows)

theorem call_of_silent {pos : Pos} {receiver : Option Expr} {method : String} {args : List Expr}
    (rests : ∀ callee param, scope.callee? receiver method = some callee →
      callee.restParam? = some param → param.ty.isArray = true)
    (silent : Silent (callMisfits scope (.call pos receiver method args))) :
    scope.PassesOn receiver method args := by
  intro callee param bound rest
  have isArray := rests callee param bound rest
  simp only [callMisfits, bound, argumentMisfits] at silent
  split at silent
  · exact ⟨isArray, trailing_of_silent method rest isArray (silent_append.mp silent).2⟩
  · exact absurd silent (not_silent_error _ _)

/-- What is assigned may be stored in the target, or it is an array literal. -/
theorem value_of_silent {target other value : Expr} {ty : Ty}
    (silent : Silent (valueMisfits scope other ty value)) (isType : scope.typeOf target = ty)
    (knowsTarget : scope.Knows target) (knowsValue : scope.Knows value) :
    scope.table.assignable (scope.typeOf target) (scope.typeOf value) = true ∨
      ∃ pos elements, value.stripped = .arrayLiteral pos elements := by
  subst isType
  rw [valueMisfits, knowsTarget, if_neg Bool.false_ne_true] at silent
  split at silent
  · exact .inr ⟨_, _, ‹_›⟩
  · exact .inl (right_of_silent silent knowsValue)

theorem assign_of_silent {target value : Expr}
    (silent : Silent (assignmentMisfits scope target value))
    (knowsTarget : scope.Knows target) (knowsValue : scope.Knows value) :
    scope.table.assignable (scope.typeOf target) (scope.typeOf value) = true ∨
      ∃ pos elements, value.stripped = .arrayLiteral pos elements := by
  rw [assignmentMisfits] at silent
  split at silent
  · next namePos name named =>
    have isType : scope.typeOf target = scope.nameType name := by
      rw [← scope.typeOf_stripped, named, Scope.typeOf]
    rw [Scope.nameType] at isType
    cases found : scope.lookup? name with
    | some resolved =>
      simp only [found] at isType silent
      exact value_of_silent silent isType knowsTarget knowsValue
    | none =>
      simp only [found] at isType silent
      split at silent
      · exact absurd silent (not_silent_error _ _)
      · next unknown =>
        rw [if_neg unknown] at isType
        rw [Scope.Knows, isType] at knowsTarget
        cases knowsTarget
  · next indexPos array position indexed =>
    refine value_of_silent silent ?_ knowsTarget knowsValue
    rw [← scope.typeOf_stripped, indexed, Scope.typeOf]
  · exact absurd silent (not_silent_error _ _)

theorem return_of_silent {pos : Pos} {value : Expr}
    (silent : Silent (returnedMisfits scope (.ret pos (some value)))) (knows : scope.Knows value) :
    scope.table.assignable scope.method.returnType (scope.typeOf value) = true := by
  rw [returnedMisfits] at silent
  split at silent
  · exact absurd silent (not_silent_error _ _)
  · exact right_of_silent silent knows

/-- If the checks are silent on a node, then its parts have the types they should. -/
theorem agrees_of_silent {node : Node}
    (rests : ∀ method callee param, scope.table.method? method = some callee →
      callee.restParam? = some param → param.ty.isArray = true)
    (onOperands : Silent ((operands scope).onNode node))
    (onConditions : Silent ((conditions scope).onNode node))
    (onAccesses : Silent ((accesses scope).onNode node))
    (onArguments : Silent ((arguments scope).onNode node))
    (onAssignments : Silent ((assignments scope).onNode node))
    (onReturns : Silent ((returns scope).onNode node)) : scope.Agrees node := by
  cases node with
  | condition condition => exact boolean_of_silent onConditions
  | expr expr =>
    cases expr with
    | binary => exact binary_of_silent onOperands
    | not => exact boolean_of_silent onOperands
    | length => exact right_of_silent onAccesses
    | index pos => exact index_of_silent pos onAccesses
    | call pos receiver method args =>
      refine call_of_silent (fun callee param bound => rests method callee param ?_) onArguments
      exact Scope.method?_of_callee? bound
    | _ => trivial
  | stmt stmt =>
    cases stmt with
    | assign => exact assign_of_silent onAssignments
    | ret pos value =>
      cases value with
      | none => exact silent_unless onReturns
      | some value => exact return_of_silent onReturns
    | _ => trivial

end Check

/-! ### Methods -/

/-- The code of a method is typed if its body stays out of the gaps. The return that is added is
typed anyway. -/
theorem Scope.Compiles.typed_iff {scope : Scope} {body : List Stmt} {method : MethodCode}
    (compiles : scope.Compiles body method) (checked : scope.Checked (everyNode.onBody body)) :
    scope.table.Typed method.body ↔ scope.Fit (everyNode.onBody body) := by
  obtain ⟨before, code, after, lowers, rfl⟩ := compiles
  have bodyTyped : scope.table.Typed code ↔ scope.Fit (everyNode.onBody body) :=
    (lowers.typed_iff (forall_onBody.mp checked)).trans Scope.fit_onBody.symm
  show scope.table.Typed (scope.method.close code) ↔ _
  rcases scope.method.close_cases code with ⟨-, added⟩ | ⟨same, -⟩
  · rw [added, ← bodyTyped]
    simp [Ty.isVoid, Ty.void, Ty.named]
  · rw [same, bodyTyped]

namespace ClassTable

/-- If no expression has an unknown type and the standard checks report no error, the code of each
method is typed exactly if its body stays out of the gaps that the checks leave: new arrays have
integers as sizes, array literals have integers as elements and are assigned only to arrays of
integers, and only arrays of integers are indexed or filled with trailing arguments. -/
theorem typed_iff_of_clean {program : Program} {entry : Option String} {report : Report}
    {before : Counters} {code : ClassCode}
    (known : ∀ decl ∈ program.classDecl.methods, ∀ expr ∈ everyExpr.onBody decl.body,
      (Scope.typeOf ⟨ofProgram program, .ofDecl decl⟩ expr).isUnknown = false)
    (ran : Check.runAll (Check.standard entry) program (ofProgram program) = .ok report)
    (clean : report.hasErrors = false)
    (lowered : ((ofProgram program).lower program before).1 = .ok code) :
    List.Forall₂
      (fun decl method => (∀ instr ∈ method.body, (ofProgram program).isTyped instr = true) ↔
        ∀ node ∈ everyNode.onBody decl.body,
          Scope.fits ⟨ofProgram program, .ofDecl decl⟩ node = true)
      program.classDecl.methods code.methods := by
  obtain ⟨-, noErrors⟩ := Check.run_of_runAll ran clean
  have silent (check : Check) (isStandard : check ∈ Check.standard entry)
      {observer : Scope → Observer Diagnostic}
      (runs : check.run program (ofProgram program) =
        Check.overBodies observer program (ofProgram program))
      {decl : MethodDecl} (member : decl ∈ program.classDecl.methods) :
      ∀ node ∈ everyNode.onBody decl.body,
        Check.Silent ((observer ⟨ofProgram program, .ofDecl decl⟩).onNode node) := by
    obtain ⟨notes, noted, allSilent⟩ := noErrors check isStandard
    rw [runs] at noted
    exact (implies_everyNode _ _).onBody (Check.forall_overBodies noted allSilent decl member)
  have checked (decl : MethodDecl) (member : decl ∈ program.classDecl.methods) :
      Scope.Checked ⟨ofProgram program, .ofDecl decl⟩ (everyNode.onBody decl.body) := by
    intro node inBody
    constructor
    · rintro expr rfl
      exact (implies_everyNode everyExpr _).onBody (known decl member) (.expr expr) inBody expr
        (List.mem_singleton_self expr)
    · exact Check.agrees_of_silent (fun _ _ _ => isArray_of_restParam?)
        (silent .binaryOperandCompatibility (by simp [Check.standard]) rfl member node inBody)
        (silent .conditionExpression (by simp [Check.standard]) rfl member node inBody)
        (silent .arrayIndexType (by simp [Check.standard]) rfl member node inBody)
        (silent .methodCallArity (by simp [Check.standard]) rfl member node inBody)
        (silent .assignmentCompatibility (by simp [Check.standard]) rfl member node inBody)
        (silent .returnCompatibility (by simp [Check.standard]) rfl member node inBody)
  refine ((List.forall₂_and_left _ _).mpr ⟨checked, compiles_of_lower_ofProgram lowered⟩).imp ?_
  rintro decl method ⟨isChecked, compiles⟩
  exact compiles.typed_iff isChecked

end ClassTable

/-- A class with two methods that return an array literal, one of two numbers and one of a truth
value. -/
def Program.literals : Program where
  imports := []
  classDecl :=
    { name := "Literals"
      superClass := none
      fields := []
      methods :=
        [method "numbers" [⟨.ofTy .nowhere .intArray, "a", false, .nowhere⟩]
            [.index .nowhere (.name .nowhere "a") (.literal .nowhere (.int 0)),
              .length .nowhere (.name .nowhere "a")],
          method "truths" [] [.literal .nowhere (.bool true)]]
      pos := .nowhere }
  pos := .nowhere
where
  method (name : String) (params : List Param) (elements : List Expr) : MethodDecl :=
    { name := name
      isPublic := true
      isStatic := false
      returnType := .ofTy .nowhere .intArray
      params := params
      locals := []
      body := [.ret .nowhere (some (.arrayLiteral .nowhere elements))]
      pos := .nowhere }

theorem typed_iff_of_clean_literals :
    Check.runAll (Check.standard none) .literals (.ofProgram .literals) = .ok .empty ∧
      ∃ numbers truths, ((ClassTable.ofProgram .literals).lower .literals {}).1 =
          .ok ((ClassTable.ofProgram .literals).classCode [numbers, truths]) ∧
        (∀ instr ∈ numbers.body, (ClassTable.ofProgram .literals).isTyped instr = true) ∧
        ¬∀ instr ∈ truths.body, (ClassTable.ofProgram .literals).isTyped instr = true := by
  have known : ∀ decl ∈ Program.literals.classDecl.methods,
      ∀ expr ∈ everyExpr.onBody decl.body,
      (Scope.typeOf ⟨.ofProgram .literals, .ofDecl decl⟩ expr).isUnknown = false := by
    decide +kernel
  have ran : Check.runAll (Check.standard none) .literals (.ofProgram .literals) = .ok .empty := rfl
  obtain ⟨numbers, truths, lowered⟩ : ∃ numbers truths,
      ((ClassTable.ofProgram .literals).lower .literals {}).1 =
        .ok ((ClassTable.ofProgram .literals).classCode [numbers, truths]) := ⟨_, _, rfl⟩
  obtain ⟨numbersTyped, others⟩ :=
    List.forall₂_cons.mp (ClassTable.typed_iff_of_clean known ran rfl lowered)
  obtain ⟨truthsTyped, -⟩ := List.forall₂_cons.mp others
  exact ⟨ran, numbers, truths, lowered, numbersTyped.mpr (by decide +kernel),
    fun typed => absurd (truthsTyped.mp typed) (by decide +kernel)⟩

/-- That the standard checks report no error does not guarantee that lowered code is typed. -/
theorem clean_not_typed :
    ¬∀ (program : Program) (entry : Option String) (report : Report) (before : Counters)
      (code : ClassCode),
      (∀ decl ∈ program.classDecl.methods, ∀ expr ∈ everyExpr.onBody decl.body,
        (Scope.typeOf ⟨.ofProgram program, .ofDecl decl⟩ expr).isUnknown = false) →
      Check.runAll (Check.standard entry) program (.ofProgram program) = .ok report →
      report.hasErrors = false →
      ((ClassTable.ofProgram program).lower program before).1 = .ok code →
      ∀ method ∈ code.methods, ∀ instr ∈ method.body,
        (ClassTable.ofProgram program).isTyped instr = true := by
  intro guarantees
  have typed := guarantees .literals none .empty {} _ (by decide +kernel) rfl rfl rfl
  revert typed
  decide +kernel

end JavaMinus
