/-
This file says when lowered code is well typed. An instruction is typed when its
operands have the types it works on and what it stores may be stored there; there
are only arrays of integers at this level.

The operand that holds the value of an expression has the type of the expression.
So the code of a body is typed if the parts of every expression have the types
that it needs. Most of this is promised by the checks, but they leave gaps: the
size of a new array, the elements of an array literal, and arrays that do not
hold integers. Where the checks promise the rest, code is typed exactly if each
node of the body stays out of these gaps.
-/

import JavaMinus.Check.Operand
import JavaMinus.Proofs.Lowering.Success

namespace JavaMinus

open Observer ClassTable

/-! ### Typed instructions -/

@[simp] theorem Operand.ty_int (value : Int32) : (Operand.int value).ty = .int := rfl

@[simp] theorem Operand.ty_bool (value : Bool) : (Operand.bool value).ty = .boolean := rfl

@[simp] theorem Operand.ty_var (name : String) (ty : Ty) : (Operand.var name ty).ty = ty := rfl

@[simp] theorem Ty.arrayOf_eq_intArray_iff (base : String) :
    Ty.arrayOf base = .intArray ↔ base = "int" := by
  simp [arrayOf, intArray]

theorem Ty.eq_intArray_iff {ty : Ty} (isArray : ty.isArray = true) :
    ty = .intArray ↔ ty.base = "int" := by
  obtain ⟨base, _⟩ := ty
  cases isArray
  exact arrayOf_eq_intArray_iff base

/-- The type of the value that an instruction computes. -/
@[simp] def Instr.valueType : Instr → Ty
  | .value operand => operand.ty
  | .arith _ _ _ ty | .getField _ _ ty => ty
  | .newObject className => .named className
  | .newArray _ => .intArray
  | .call invocation => invocation.returnType
  | .loadElement _ _ | .arrayLength _ => .int
  | _ => .void

@[simp] def Condition.isTyped : Condition → Bool
  | .less left right => left.ty == .int && right.ty == .int
  | .nonZero operand => operand.ty == .boolean

namespace ClassTable

/-- Whether the operands of an instruction have the types that it works on, and what it stores or
returns fits the type that is declared there. -/
@[simp] def isTyped (table : ClassTable) : Instr → Bool
  | .arith _ left right _ => left.ty == .int && right.ty == .int
  | .assign _ rhs ty => table.isTyped rhs && table.assignable ty rhs.valueType
  | .newArray size => size.ty == .int
  | .putField _ _ ty stored => table.assignable ty stored.ty
  | .loadElement array position => array.ty == .intArray && position.ty == .int
  | .storeElement array position stored =>
    array.ty == .intArray && position.ty == .int && stored.ty == .int
  | .arrayLength array => array.ty.isArray
  | .branch condition _ => condition.isTyped
  | .discard inner => table.isTyped inner
  | .ret (some result) ty => ty.isVoid || table.assignable ty result.ty
  | .ret none ty => ty.isVoid
  | .value _ | .newObject _ | .call _ | .getField _ _ _ | .label _ | .goto _ => true

/-- All instructions are typed. -/
def Typed (table : ClassTable) (code : List Instr) : Prop :=
  ∀ instr ∈ code, table.isTyped instr = true

variable {table : ClassTable}

@[simp] theorem typed_append {first second : List Instr} :
    table.Typed (first ++ second) ↔ table.Typed first ∧ table.Typed second :=
  List.forall_mem_append

@[simp] theorem typed_cons {instr : Instr} {rest : List Instr} :
    table.Typed (instr :: rest) ↔ table.isTyped instr = true ∧ table.Typed rest :=
  List.forall_mem_cons

@[simp] theorem typed_nil : table.Typed [] := nofun

@[simp] theorem typed_joined (target : Label) (code : List Instr) :
    table.Typed (Lower.joined target code) ↔ table.Typed code := by
  rw [Lower.joined]
  split <;> simp [isTyped]

@[simp] theorem assignable_self (table : ClassTable) (ty : Ty) : table.assignable ty ty = true := by
  rw [assignable, beq_self_eq_true, Bool.true_or]

/-- Arrays and words can only be stored as what they are. -/
theorem assignable_iff_eq {target source : Ty} (notClass : target.isClass = false ∨
    source.isClass = false) : table.assignable target source = true ↔ target = source := by
  rw [assignable, Bool.or_eq_true, beq_iff_eq]
  rcases notClass with notClass | notClass <;> simp [notClass]

@[simp] theorem assignable_intArray_iff {target : Ty} :
    table.assignable target .intArray = true ↔ target = .intArray :=
  assignable_iff_eq (.inr rfl)

@[simp] theorem int_assignable_iff {source : Ty} :
    table.assignable .int source = true ↔ source = .int :=
  (assignable_iff_eq (.inl rfl)).trans eq_comm

theorem isTyped_standing (call : Call) : table.isTyped (Scope.standing call) = true := by
  rw [Scope.standing]
  split <;> rfl

theorem isTyped_rightHandSide (scope : Scope) (operand : Operand) :
    table.isTyped (scope.rightHandSide operand) = true := by
  cases operand <;> rfl

end ClassTable

theorem Scope.valueType_rightHandSide (scope : Scope) (operand : Operand) :
    (scope.rightHandSide operand).valueType = operand.ty := by
  cases operand <;> rfl

/-! ### Nodes -/

/-- A node of a body. The condition of an `if` or `while` is also a node as an expression. -/
inductive Node
  | stmt (stmt : Stmt)
  | condition (expr : Expr)
  | expr (expr : Expr)

/-- Notes every node. -/
def Observer.everyNode : Observer Node where
  stmt := fun stmt => [.stmt stmt]
  condition := fun expr => [.condition expr]
  expr := fun expr => [.expr expr]

namespace Observer

@[simp] theorem everyNode_expr (expr : Expr) : everyNode.expr expr = [.expr expr] := rfl

@[simp] theorem everyNode_stmt (stmt : Stmt) : everyNode.stmt stmt = [.stmt stmt] := rfl

@[simp] theorem everyNode_condition (condition : Expr) :
    everyNode.condition condition = [.condition condition] := rfl

end Observer

namespace Scope

/-- Whether trailing arguments are passed on as they are, as a single array. -/
def passes (scope : Scope) (param : Binding) : List Expr → Bool
  | [arg] => scope.typeOf arg == param.ty
  | _ => false

/-- Whether a call packs trailing arguments only into an array of integers. -/
def packsInts (scope : Scope) (receiver : Option Expr) (method : String) (args : List Expr) :
    Bool :=
  (scope.callee? receiver method).all fun callee => callee.restParam?.all fun param =>
    scope.passes param (args.drop callee.fixedArity) || param.ty == .intArray

/-- Whether a node stays out of the gaps that the checks leave. -/
def fits (scope : Scope) : Node → Bool
  | .expr (.newArray _ size) => scope.typeOf size == .int
  | .expr (.index _ array _) => scope.typeOf array == .intArray
  | .expr (.arrayLiteral _ elements) => elements.all fun element => scope.typeOf element == .int
  | .expr (.call _ receiver method args) => scope.packsInts receiver method args
  | .stmt (.assign _ target value) =>
    match value.stripped with
    | .arrayLiteral _ _ => scope.typeOf target == .intArray
    | _ => true
  | _ => true

/-- All of these nodes stay out of the gaps. -/
def Fit (scope : Scope) (nodes : List Node) : Prop := ∀ node ∈ nodes, scope.fits node = true

def Knows (scope : Scope) (expr : Expr) : Prop := (scope.typeOf expr).isUnknown = false

/-- The trailing arguments of a call are passed on as an array, or they have the type of its
elements. -/
def PassesOn (scope : Scope) (receiver : Option Expr) (method : String) (args : List Expr) : Prop :=
  ∀ callee param, scope.callee? receiver method = some callee → callee.restParam? = some param →
    param.ty.isArray = true ∧ (scope.passes param (args.drop callee.fixedArity) = true ∨
      ∀ arg ∈ args.drop callee.fixedArity, scope.Knows arg →
        scope.typeOf arg = .named param.ty.base)

/-- What the checks promise of a node, as far as types are known. -/
def Agrees (scope : Scope) : Node → Prop
  | .expr (.binary _ op left right) => scope.Knows left → scope.Knows right →
    scope.typeOf left = Check.operandType op ∧ scope.typeOf right = Check.operandType op
  | .expr (.not _ operand) => scope.Knows operand → scope.typeOf operand = .boolean
  | .expr (.length _ array) => scope.Knows array → (scope.typeOf array).isArray = true
  | .expr (.index _ _ position) => scope.Knows position → scope.typeOf position = .int
  | .expr (.call _ receiver method args) => scope.PassesOn receiver method args
  | .condition condition => scope.Knows condition → scope.typeOf condition = .boolean
  | .stmt (.assign _ target value) => scope.Knows target → scope.Knows value →
    scope.table.assignable (scope.typeOf target) (scope.typeOf value) = true ∨
      ∃ pos elements, value.stripped = .arrayLiteral pos elements
  | .stmt (.ret _ (some value)) => scope.Knows value →
    scope.table.assignable scope.method.returnType (scope.typeOf value) = true
  | .stmt (.ret _ none) => scope.method.returnType.isVoid = true
  | _ => True

/-- The checks found nothing wrong with a node, and its type is known. -/
structure Checks (scope : Scope) (node : Node) : Prop where
  known : ∀ expr, node = .expr expr → scope.Knows expr
  agrees : scope.Agrees node

/-- The checks found nothing wrong with any of these nodes. -/
def Checked (scope : Scope) (nodes : List Node) : Prop := ∀ node ∈ nodes, scope.Checks node

variable {scope : Scope}

@[simp] theorem fit_append {first second : List Node} :
    scope.Fit (first ++ second) ↔ scope.Fit first ∧ scope.Fit second :=
  List.forall_mem_append

@[simp] theorem fit_cons {node : Node} {rest : List Node} :
    scope.Fit (node :: rest) ↔ scope.fits node = true ∧ scope.Fit rest :=
  List.forall_mem_cons

@[simp] theorem fit_nil : scope.Fit [] := nofun

@[simp] theorem checked_append {first second : List Node} :
    scope.Checked (first ++ second) ↔ scope.Checked first ∧ scope.Checked second :=
  List.forall_mem_append

@[simp] theorem checked_cons {node : Node} {rest : List Node} :
    scope.Checked (node :: rest) ↔ scope.Checks node ∧ scope.Checked rest :=
  List.forall_mem_cons

theorem Checked.knows {expr : Expr} (checked : scope.Checked (everyNode.onExpr expr)) :
    scope.Knows expr := by
  refine (checked (.expr expr) ?_).known expr rfl
  rw [onExpr.eq_def]
  exact List.mem_append_left _ (List.mem_singleton_self _)

theorem Checked.stripped {expr : Expr} (checked : scope.Checked (everyNode.onExpr expr)) :
    scope.Checked (everyNode.onExpr expr.stripped) :=
  forall_onExpr_stripped checked

/-- The operands of an operator have the type it works on. -/
theorem Checked.binary {pos : Pos} {op : BinaryOp} {left right : Expr}
    (checked : scope.Checked (everyNode.onExpr (.binary pos op left right))) :
    (scope.typeOf left = Check.operandType op ∧ scope.typeOf right = Check.operandType op) ∧
      scope.Checked (everyNode.onExpr left) ∧ scope.Checked (everyNode.onExpr right) := by
  simp only [onExpr, everyNode_expr, checked_append, checked_cons] at checked
  obtain ⟨⟨itself, -⟩, onLeft, onRight⟩ := checked
  exact ⟨itself.agrees onLeft.knows onRight.knows, onLeft, onRight⟩

theorem Checked.not {pos : Pos} {operand : Expr}
    (checked : scope.Checked (everyNode.onExpr (.not pos operand))) :
    scope.typeOf operand = .boolean ∧ scope.Checked (everyNode.onExpr operand) := by
  simp only [onExpr, everyNode_expr, checked_append, checked_cons] at checked
  exact ⟨checked.1.1.agrees checked.2.knows, checked.2⟩

theorem Checked.index {pos : Pos} {array position : Expr}
    (checked : scope.Checked (everyNode.onExpr (.index pos array position))) :
    scope.typeOf position = .int ∧
      scope.Checked (everyNode.onExpr array) ∧ scope.Checked (everyNode.onExpr position) := by
  simp only [onExpr, everyNode_expr, checked_append, checked_cons] at checked
  exact ⟨checked.1.1.agrees checked.2.2.knows, checked.2⟩

theorem Checked.length {pos : Pos} {array : Expr}
    (checked : scope.Checked (everyNode.onExpr (.length pos array))) :
    (scope.typeOf array).isArray = true ∧ scope.Checked (everyNode.onExpr array) := by
  simp only [onExpr, everyNode_expr, checked_append, checked_cons] at checked
  exact ⟨checked.1.1.agrees checked.2.knows, checked.2⟩

theorem Checked.call {pos : Pos} {receiver : Option Expr} {method : String} {args : List Expr}
    (checked : scope.Checked (everyNode.onExpr (.call pos receiver method args))) :
    scope.PassesOn receiver method args ∧
      (∀ expr, receiver = some expr → scope.Checked (everyNode.onExpr expr)) ∧
      ∀ arg ∈ args, scope.Checked (everyNode.onExpr arg) := by
  obtain ⟨itself, rest⟩ := forall_onExpr_call.mp checked
  exact ⟨(itself _ (List.mem_singleton_self _)).agrees, rest⟩

theorem Checked.condition {condition : Expr}
    (checked : scope.Checked (everyNode.onCondition condition)) :
    scope.typeOf condition = .boolean ∧ scope.Checked (everyNode.onExpr condition) := by
  simp only [onCondition, everyNode_condition, checked_append, checked_cons] at checked
  exact ⟨checked.1.1.agrees checked.2.knows, checked.2⟩

/-- Where an assignment goes to, there is a gap only for array literals. -/
theorem Checked.assign {pos : Pos} {target value : Expr}
    (checked : scope.Checked (everyNode.onStmt (.assign pos target value))) :
    (scope.table.assignable (scope.typeOf target) (scope.typeOf value) = true ↔
      scope.fits (.stmt (.assign pos target value)) = true) ∧
      scope.Checked (everyNode.onExpr target) ∧ scope.Checked (everyNode.onExpr value) := by
  simp only [onStmt, everyNode_stmt, checked_append, checked_cons] at checked
  obtain ⟨⟨itself, -⟩, onTarget, onValue⟩ := checked
  refine ⟨?_, onTarget, onValue⟩
  rw [fits]
  split
  · next literalPos elements isLiteral =>
    rw [← scope.typeOf_stripped value, isLiteral, beq_iff_eq]
    exact assignable_intArray_iff
  · next notLiteral =>
    refine iff_of_true ?_ rfl
    rcases itself.agrees onTarget.knows onValue.knows with isAssignable | ⟨_, _, isLiteral⟩
    · exact isAssignable
    · exact absurd isLiteral (notLiteral _ _)

@[simp] theorem fit_onCondition {condition : Expr} :
    scope.Fit (everyNode.onCondition condition) ↔ scope.Fit (everyNode.onExpr condition) := by
  simp [onCondition, fits]

theorem fit_onExprs {exprs : List Expr} :
    scope.Fit (everyNode.onExprs exprs) ↔ ∀ expr ∈ exprs, scope.Fit (everyNode.onExpr expr) :=
  forall_onExprs

theorem fit_onBody {body : List Stmt} :
    scope.Fit (everyNode.onBody body) ↔ ∀ stmt ∈ body, scope.Fit (everyNode.onStmt stmt) :=
  forall_onBody

theorem fit_call {pos : Pos} {receiver : Option Expr} {method : String} {args : List Expr} :
    scope.Fit (everyNode.onExpr (.call pos receiver method args)) ↔
      scope.packsInts receiver method args = true ∧
      (∀ expr, receiver = some expr → scope.Fit (everyNode.onExpr expr)) ∧
      ∀ arg ∈ args, scope.Fit (everyNode.onExpr arg) :=
  forall_onExpr_call.trans (and_congr_left' List.forall_mem_singleton)

/-! ### Arguments and what is packed -/

theorem passes_eq_true_iff {param : Binding} {trailing : List Expr} :
    scope.passes param trailing = true ↔ ∃ arg, trailing = [arg] ∧ scope.typeOf arg = param.ty := by
  rw [passes.eq_def]
  split
  · simp
  · next notSingle =>
    refine iff_of_false Bool.false_ne_true ?_
    rintro ⟨arg, rfl, -⟩
    exact notSingle arg rfl

/-- Arguments that are not passed on have the type of the elements, so they are packed into an array
of integers exactly if they are integers. -/
theorem PassesOn.packs_iff {receiver : Option Expr} {method : String} {args : List Expr}
    {callee : Signature} {param : Binding} (passesOn : scope.PassesOn receiver method args)
    (bound : scope.callee? receiver method = some callee) (rest : callee.restParam? = some param)
    (notArray : ∀ arg, args.drop callee.fixedArity = [arg] → scope.typeOf arg ≠ param.ty)
    (known : ∀ arg ∈ args, scope.Knows arg) :
    ((param.ty.element?.getD .int).base = "int" ∧
      ∀ arg ∈ args.drop callee.fixedArity, scope.typeOf arg = .int) ↔
      scope.packsInts receiver method args = true := by
  obtain ⟨isArray, onward⟩ := passesOn callee param bound rest
  have notPassed : scope.passes param (args.drop callee.fixedArity) = false := by
    rw [Bool.eq_false_iff, ne_eq, passes_eq_true_iff]
    rintro ⟨arg, single, same⟩
    exact notArray arg single same
  have isElement : (param.ty.element?.getD .int).base = param.ty.base := by
    rw [Ty.element?, if_pos isArray]
    rfl
  have isInts : scope.packsInts receiver method args = true ↔ param.ty.base = "int" := by
    simp [packsInts, bound, rest, notPassed, Ty.eq_intArray_iff isArray]
  rw [notPassed] at onward
  rw [isElement, isInts]
  refine ⟨And.left, fun isInt => ⟨isInt, fun arg member => ?_⟩⟩
  rcases onward with isPassed | agree
  · cases isPassed
  · rw [agree arg member (known arg (List.mem_of_mem_drop member)), isInt]
    rfl

theorem forall_take_and_drop {args : List Expr} {count : Nat} {each : Expr → Prop} :
    ((∀ arg ∈ args.take count, each arg) ∧ ∀ arg ∈ args.drop count, each arg) ↔
      ∀ arg ∈ args, each arg := by
  rw [← List.forall_mem_append, List.take_append_drop]

/-- Parentheses always fit. -/
theorem fit_stripped (scope : Scope) (expr : Expr) :
    scope.Fit (everyNode.onExpr expr.stripped) ↔ scope.Fit (everyNode.onExpr expr) := by
  induction expr with
  | paren pos inner inductionHypothesis =>
    rw [Expr.stripped_paren, inductionHypothesis, onExpr, Fit, Fit, List.forall_mem_append]
    refine (and_iff_right ?_).symm
    exact List.forall_mem_singleton.mpr rfl
  | _ => rfl

end Scope

/-- An assignment to a name fits if its value does and may be stored there. -/
theorem Scope.Checked.fit_assign_name {scope : Scope} {pos namePos : Pos} {target value : Expr}
    {name : String} {found : Variable}
    (checked : scope.Checked (everyNode.onStmt (.assign pos target value)))
    (named : target.stripped = .name namePos name) (resolved : scope.lookup? name = some found) :
    (scope.Fit (everyNode.onExpr value) ∧
      scope.table.assignable found.ty (scope.typeOf value) = true) ↔
      scope.Fit (everyNode.onStmt (.assign pos target value)) := by
  have targetType : scope.typeOf target = found.ty := by
    rw [← scope.typeOf_stripped, named, typeOf, nameType, resolved]
  have targetFits : scope.Fit (everyNode.onExpr target) := by
    rw [← fit_stripped, named]
    simp [onExpr, fits]
  rw [← targetType, checked.assign.1]
  simp [onStmt, targetFits, and_comm]

/-- An assignment to an element fits if its parts do, and both the array and the value are what the
element needs. -/
theorem Scope.Checked.fit_assign_index {scope : Scope} {pos indexPos : Pos}
    {target value array position : Expr}
    (checked : scope.Checked (everyNode.onStmt (.assign pos target value)))
    (indexed : target.stripped = .index indexPos array position) :
    (scope.Fit (everyNode.onExpr array) ∧ scope.Fit (everyNode.onExpr position) ∧
      scope.Fit (everyNode.onExpr value) ∧
      scope.typeOf array = .intArray ∧ scope.typeOf value = .int) ↔
      scope.Fit (everyNode.onStmt (.assign pos target value)) := by
  have targetType : scope.typeOf target = .int := by
    rw [← scope.typeOf_stripped, indexed, typeOf]
  have targetFits : scope.Fit (everyNode.onExpr target) ↔ scope.typeOf array = .intArray ∧
      scope.Fit (everyNode.onExpr array) ∧ scope.Fit (everyNode.onExpr position) := by
    rw [← fit_stripped, indexed]
    simp [onExpr, fits]
  have stored := checked.assign.1
  rw [targetType, int_assignable_iff] at stored
  rw [onStmt, fit_append, fit_append, targetFits, everyNode_stmt, fit_cons, ← stored]
  constructor
  · rintro ⟨onArray, onPosition, onValue, isIntArray, isInt⟩
    exact ⟨⟨isInt, fit_nil⟩, ⟨isIntArray, onArray, onPosition⟩, onValue⟩
  · rintro ⟨⟨isInt, -⟩, ⟨isIntArray, onArray, onPosition⟩, onValue⟩
    exact ⟨onArray, onPosition, onValue, isIntArray, isInt⟩

/-- Expressions that are natural as jumps are truth values. -/
theorem Scope.typeOf_of_isBranching (scope : Scope) {expr : Expr}
    (branching : expr.isBranching = true) : scope.typeOf expr = .boolean := by
  cases expr with
  | binary pos op left right =>
    rw [Expr.isBranching, Bool.not_eq_true'] at branching
    rw [typeOf, branching]
    rfl
  | not => rfl
  | _ => cases branching

/-! ### Types of results -/

/-- The operand that a phrase leaves has the type of what it holds, except that the value of a call
that binds to no method has the type that is asked for. -/
def Phrase.ResultTyped (scope : Scope) : Phrase → Prop
  | .value expr expected result => result.ty = scope.typeOf expr ∨
    result.ty = expected ∧ expected.isUnknown = false ∧ scope.typeOf expr = .unknown
  | .pack element _ result => result.ty = .arrayOf element.base
  | .call receiver method _ expected invocation => invocation.returnType =
    ((scope.callee? receiver method).map Signature.returnType).getD expected
  | _ => True

theorem Lowers.resultTyped {scope : Scope} {phrase : Phrase} {before after : Counters}
    {code : List Instr} (lowers : Lowers scope phrase before code after) :
    phrase.ResultTyped scope := by
  induction lowers with
  | int | bool | this | arith | newObject | newArray | index | length => exact .inl rfl
  | field found | var found =>
    refine .inl ?_
    rw [Scope.typeOf, Scope.nameType, found]
    rfl
  | @callValue pos receiver method _ _ _ _ _ _ _ valued returns =>
    rw [Phrase.ResultTyped] at returns
    rw [Bool.or_eq_false_iff] at valued
    rw [Phrase.ResultTyped, Scope.typeOf_call]
    cases bound : scope.callee? receiver method with
    | none =>
      rw [bound] at returns
      exact .inr ⟨returns, by rw [← valued.2, returns]; rfl, rfl⟩
    | some callee =>
      rw [bound] at returns
      exact .inl returns
  | arrayLiteral _ packed => exact .inl packed
  | paren _ inner => exact inner
  | materialize branching => exact .inl (scope.typeOf_of_isBranching branching).symm
  | pack => rfl
  | unbound callee | bound callee | passed callee | packed callee =>
    rw [Phrase.ResultTyped, callee]
    rfl
  | _ => trivial

/-- The operand that a phrase leaves has the type of what it holds. -/
def Phrase.ResultAgrees (scope : Scope) : Phrase → Prop
  | .value expr _ result => scope.Knows expr → result.ty = scope.typeOf expr
  | .pack element _ result => result.ty = .arrayOf element.base
  | .call receiver method _ _ invocation => ∀ callee, scope.callee? receiver method = some callee →
    invocation.returnType = callee.returnType
  | _ => True

theorem Lowers.resultAgrees {scope : Scope} {phrase : Phrase} {before after : Counters}
    {code : List Instr} (lowers : Lowers scope phrase before code after) :
    phrase.ResultAgrees scope := by
  have typed := lowers.resultTyped
  cases phrase with
  | value expr expected result =>
    intro known
    rcases typed with isType | ⟨-, -, unknown⟩
    · exact isType
    · rw [Scope.Knows, unknown] at known
      cases known
  | pack element items result => exact typed
  | call receiver method args expected invocation =>
    intro callee bound
    rw [Phrase.ResultTyped, bound] at typed
    exact typed
  | _ => trivial

/-! ### Typed code -/

/-- The checks found nothing wrong with what a phrase is made of. What decides a jump must be a
truth value. -/
@[simp] def Phrase.Checked (scope : Scope) : Phrase → Prop
  | .value expr _ _ => scope.Checked (everyNode.onExpr expr)
  | .jump expr _ _ => scope.typeOf expr = .boolean ∧ scope.Checked (everyNode.onExpr expr)
  | .values items _ => ∀ expr ∈ items.map Prod.fst, scope.Checked (everyNode.onExpr expr)
  | .fill _ _ _ items | .pack _ items _ => ∀ item ∈ items, scope.Checked (everyNode.onExpr item)
  | .target receiver _ _ _ => ∀ expr, receiver = some expr → scope.Checked (everyNode.onExpr expr)
  | .call receiver method args _ _ => scope.PassesOn receiver method args ∧
    (∀ expr, receiver = some expr → scope.Checked (everyNode.onExpr expr)) ∧
    ∀ arg ∈ args, scope.Checked (everyNode.onExpr arg)
  | .stmt single => scope.Checked (everyNode.onStmt single)
  | .body stmts => ∀ stmt ∈ stmts, scope.Checked (everyNode.onStmt stmt)

/-- What a phrase is made of stays out of the gaps. What is packed into an array must be integers,
and so must the elements of the array be. -/
@[simp] def Phrase.Fits (scope : Scope) : Phrase → Prop
  | .value expr _ _ | .jump expr _ _ => scope.Fit (everyNode.onExpr expr)
  | .values items _ => ∀ expr ∈ items.map Prod.fst, scope.Fit (everyNode.onExpr expr)
  | .fill array _ _ items => ∀ item ∈ items,
    (array.ty = .intArray ∧ scope.typeOf item = .int) ∧ scope.Fit (everyNode.onExpr item)
  | .pack element items _ => element.base = "int" ∧
    ∀ item ∈ items, scope.typeOf item = .int ∧ scope.Fit (everyNode.onExpr item)
  | .target receiver _ _ _ => ∀ expr, receiver = some expr → scope.Fit (everyNode.onExpr expr)
  | .call receiver method args _ _ => scope.packsInts receiver method args = true ∧
    (∀ expr, receiver = some expr → scope.Fit (everyNode.onExpr expr)) ∧
    ∀ arg ∈ args, scope.Fit (everyNode.onExpr arg)
  | .stmt single => scope.Fit (everyNode.onStmt single)
  | .body stmts => ∀ stmt ∈ stmts, scope.Fit (everyNode.onStmt stmt)

theorem Lowers.typed_iff {scope : Scope} {phrase : Phrase} {before after : Counters}
    {code : List Instr} (lowers : Lowers scope phrase before code after)
    (checked : phrase.Checked scope) : scope.table.Typed code ↔ phrase.Fits scope := by
  induction lowers with
  | int | bool | field | var | this => simp [onExpr, Scope.fits]
  | newObject | decided => simp [onExpr, Scope.fits]
  | arith leftLowers rightLowers left right =>
    obtain ⟨⟨leftInt, rightInt⟩, onLeft, onRight⟩ := Scope.Checked.binary checked
    have leftType := (leftLowers.resultAgrees onLeft.knows).trans leftInt
    have rightType := (rightLowers.resultAgrees onRight.knows).trans rightInt
    simp [onExpr, Scope.fits, left onLeft, right onRight, leftType, rightType, Check.operandType,
      BinaryOp.isLogical]
  | newArray sizeLowers size =>
    simp only [Phrase.Checked, onExpr, Scope.checked_append] at checked
    have sizeType := sizeLowers.resultAgrees checked.2.knows
    simp [onExpr, Scope.fits, size checked.2, sizeType, and_comm]
  | index arrayLowers positionLowers array position =>
    obtain ⟨positionInt, onArray, onPosition⟩ := Scope.Checked.index checked
    have arrayType := arrayLowers.resultAgrees onArray.knows
    have positionType := (positionLowers.resultAgrees onPosition.knows).trans positionInt
    simp [onExpr, Scope.fits, array onArray, position onPosition, arrayType, positionType, and_comm,
      and_assoc]
  | length arrayLowers array =>
    obtain ⟨isArray, onArray⟩ := Scope.Checked.length checked
    have arrayType := arrayLowers.resultAgrees onArray.knows
    simp [onExpr, Scope.fits, array onArray, arrayType, isArray]
  | callValue _ _ call =>
    have onCall := Scope.Checked.call checked
    rw [Phrase.Fits, Scope.fit_call]
    simp [call onCall]
  | arrayLiteral _ packed =>
    simp only [Phrase.Checked, onExpr, Scope.checked_append] at checked
    have onElements := forall_onExprs.mp checked.2
    rw [packed onElements, Phrase.Fits, Phrase.Fits, onExpr, Scope.fit_append, Scope.fit_onExprs]
    simp [Scope.fits, Ty.int, Ty.named, forall_and]
  | paren _ inner =>
    simp only [Phrase.Checked, onExpr, Scope.checked_append] at checked
    simp [onExpr, Scope.fits, inner checked.2]
  | materialize branching _ jump =>
    simp [Scope.diamond,
      jump ⟨scope.typeOf_of_isBranching branching, checked⟩]
  | less leftLowers rightLowers left right =>
    obtain ⟨⟨leftInt, rightInt⟩, onLeft, onRight⟩ := Scope.Checked.binary checked.2
    have leftType := (leftLowers.resultAgrees onLeft.knows).trans leftInt
    have rightType := (rightLowers.resultAgrees onRight.knows).trans rightInt
    simp [onExpr, Scope.fits, left onLeft, right onRight, leftType, rightType, Check.operandType,
      BinaryOp.isLogical]
  | and _ _ left right | or _ _ left right =>
    obtain ⟨⟨leftBoolean, rightBoolean⟩, onLeft, onRight⟩ := Scope.Checked.binary checked.2
    simp [onExpr, Scope.fits, left ⟨leftBoolean, onLeft⟩, right ⟨rightBoolean, onRight⟩]
  | not _ inner =>
    simpa [onExpr, Scope.fits] using inner (Scope.Checked.not checked.2)
  | parenJump _ inner =>
    simp only [Phrase.Checked, onExpr, Scope.checked_append] at checked
    simpa [onExpr, Scope.fits] using inner ⟨checked.1, checked.2.2⟩
  | nonZero _ valueLowers value =>
    have isBoolean := (valueLowers.resultAgrees checked.2.knows).trans checked.1
    simp [value checked.2, isBoolean]
  | noValues | filled => simp
  | moreValues _ _ first rest =>
    obtain ⟨onFirst, onRest⟩ := List.forall_mem_cons.mp checked
    rw [typed_append, first onFirst, rest onRest]
    simp
  | fillMore firstLowers _ first rest =>
    obtain ⟨onFirst, onRest⟩ := List.forall_mem_cons.mp checked
    have firstType := firstLowers.resultAgrees onFirst.knows
    rw [typed_append, typed_cons, first onFirst, rest onRest]
    simp [firstType, and_assoc, and_left_comm]
  | pack _ fill =>
    rw [typed_cons, fill checked]
    simp +contextual
  | implicitStatic | implicitThis => simp
  | onThis isThis =>
    obtain ⟨pos, same⟩ := Expr.stripped_of_isThis isThis
    refine iff_of_true typed_nil ?_
    rintro _ ⟨⟩
    rw [← Scope.fit_stripped, same]
    simp [onExpr, Scope.fits]
  | onClass named =>
    refine iff_of_true typed_nil ?_
    rintro _ ⟨⟩
    rw [← Scope.fit_stripped, named]
    simp [onExpr, Scope.fits]
  | onValue _ _ _ inner => simpa using inner (checked _ rfl)
  | unbound callee _ _ target values =>
    obtain ⟨-, onReceiver, onArgs⟩ := checked
    rw [Phrase.Checked, Phrase.Fits, Scope.map_fst_bareItems] at values
    rw [typed_append, target onReceiver, values onArgs]
    simp [Scope.packsInts, callee]
  | bound callee noRest _ _ target values =>
    obtain ⟨-, onReceiver, onArgs⟩ := checked
    rw [Phrase.Checked, Phrase.Fits, Scope.map_fst_boundItems] at values
    rw [typed_append, target onReceiver, values onArgs]
    simp [Scope.packsInts, callee, noRest]
  | passed callee rest single isArray _ _ target values =>
    obtain ⟨-, onReceiver, onArgs⟩ := checked
    rw [Phrase.Checked, Phrase.Fits, Scope.map_fst_passedItems single] at values
    rw [typed_append, target onReceiver, values onArgs]
    simp [Scope.packsInts, callee, rest, single, Scope.passes, isArray]
  | packed callee rest notArray _ _ _ target values pack =>
    obtain ⟨passesOn, onReceiver, onArgs⟩ := checked
    obtain ⟨onFixed, onTrailing⟩ := Scope.forall_take_and_drop.mpr onArgs
    have packs := passesOn.packs_iff callee rest notArray fun arg member =>
      (onArgs arg member).knows
    rw [Phrase.Checked, Phrase.Fits, Scope.map_fst_fixedItems] at values
    rw [typed_append, typed_append, target onReceiver, values onFixed, pack onTrailing]
    constructor
    · rintro ⟨fitReceiver, fitFixed, isInt, fitTrailing⟩
      exact ⟨packs.mp ⟨isInt, fun arg member => (fitTrailing arg member).1⟩, fitReceiver,
        Scope.forall_take_and_drop.mp ⟨fitFixed, fun arg member => (fitTrailing arg member).2⟩⟩
    · rintro ⟨packsInts, fitReceiver, fitArgs⟩
      obtain ⟨isInt, areInts⟩ := packs.mpr packsInts
      obtain ⟨fitFixed, fitTrailing⟩ := Scope.forall_take_and_drop.mpr fitArgs
      exact ⟨fitReceiver, fitFixed, isInt,
        fun arg member => ⟨areInts arg member, fitTrailing arg member⟩⟩
  | block _ body =>
    simp only [Phrase.Checked, onStmt, Scope.checked_append] at checked
    rw [body (forall_onBody.mp checked.2), Phrase.Fits, Phrase.Fits, onStmt, Scope.fit_append,
      Scope.fit_onBody]
    simp [Scope.fits]
  | ifThen _ _ jump thenBranch =>
    simp only [Phrase.Checked, onStmt, Scope.checked_append] at checked
    simp [onStmt, Scope.fits, jump checked.2.1.condition, thenBranch checked.2.2]
  | ifElse _ _ _ jump thenBranch elseBranch =>
    simp only [Phrase.Checked, onStmt, Scope.checked_append] at checked
    simp [onStmt, Scope.fits, jump checked.2.1.1.condition, thenBranch checked.2.1.2,
      elseBranch checked.2.2]
  | whileLoop _ _ jump body =>
    simp only [Phrase.Checked, onStmt, Scope.checked_append] at checked
    simp [onStmt, Scope.fits, jump checked.2.1.condition, body checked.2.2]
  | evalCall isCall _ call =>
    simp only [Phrase.Checked, onStmt, Scope.checked_append] at checked
    have onCall := checked.2.stripped
    rw [isCall] at onCall
    have fitCall := call onCall.call
    rw [Phrase.Fits, ← Scope.fit_call, ← isCall, Scope.fit_stripped] at fitCall
    simp [onStmt, Scope.fits, fitCall, isTyped_standing]
  | eval _ _ value =>
    simp only [Phrase.Checked, onStmt, Scope.checked_append] at checked
    rw [value checked.2]
    simp [onStmt, Scope.fits]
  | assignField named found valueLowers value =>
    have onValue := checked.assign.2.2
    have valueType := valueLowers.resultAgrees onValue.knows
    rw [Phrase.Fits, ← checked.fit_assign_name named found]
    simp [value onValue, valueType, Variable.ty, Variable.binding]
  | assignVariable named resolved _ valueLowers value =>
    have onValue := checked.assign.2.2
    have valueType := valueLowers.resultAgrees onValue.knows
    rw [Phrase.Fits, ← checked.fit_assign_name named resolved, typed_append, typed_cons, isTyped,
      isTyped_rightHandSide, Scope.valueType_rightHandSide, valueType]
    simp [value onValue]
  | assignElement indexed arrayLowers positionLowers valueLowers array position value =>
    obtain ⟨-, onTarget, onValue⟩ := checked.assign
    have onIndex := onTarget.stripped
    rw [indexed] at onIndex
    obtain ⟨positionInt, onArray, onPosition⟩ := onIndex.index
    have arrayType := arrayLowers.resultAgrees onArray.knows
    have positionType := (positionLowers.resultAgrees onPosition.knows).trans positionInt
    have valueType := valueLowers.resultAgrees onValue.knows
    rw [Phrase.Fits, ← checked.fit_assign_index indexed]
    simp [array onArray, position onPosition, value onValue, arrayType, positionType, valueType]
  | returnNothing =>
    simp only [Phrase.Checked, onStmt, everyNode_stmt, Scope.checked_append, Scope.checked_cons]
      at checked
    have isVoid := checked.1.1.agrees
    simp only [Scope.Agrees] at isVoid
    simp [onStmt, Scope.fits, isVoid]
  | returnValue valueLowers value =>
    simp only [Phrase.Checked, onStmt, everyNode_stmt, Scope.checked_append, Scope.checked_cons]
      at checked
    obtain ⟨⟨itself, -⟩, onValue⟩ := checked
    have isAssignable := itself.agrees onValue.knows
    have valueType := valueLowers.resultAgrees onValue.knows
    simp [onStmt, Scope.fits, value onValue, valueType, isAssignable]
  | noStmts => simp
  | moreStmts _ _ first rest =>
    obtain ⟨onFirst, onRest⟩ := List.forall_mem_cons.mp checked
    rw [typed_append, first onFirst, rest onRest]
    simp

end JavaMinus
