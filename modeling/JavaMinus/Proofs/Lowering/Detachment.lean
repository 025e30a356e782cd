/-
This file says that the code of a static method has nothing to do with a receiver.
An operand is detached if it is neither the receiver nor a field of it, and an
instruction is detached if its operands are, if it neither reads nor writes a field,
and if it makes no call on the receiver. A static method sees no fields, and a call
without a receiver goes to the class, so only a `this` in its body could attach
the code. The check on receivers reports every such `this`, whichever method is the
entry method; so if it reports no error, the code of every static method is detached.
-/

import Mathlib.Tactic.MkIffOfInductiveProp
import JavaMinus.Proofs.Check.Clean
import JavaMinus.Proofs.Lowering.Shape
import JavaMinus.Proofs.Lowering.Types

namespace JavaMinus

open Observer

/-! ### Code without a receiver -/

/-- Whether an operand is neither the receiver nor a field of it. -/
def Operand.isDetached : Operand → Bool
  | .literal _ _ | .var _ _ => true
  | .field _ _ | .this _ => false

/-- A call that is not made on the receiver and that is given nothing of it. -/
structure Call.Detached (call : Call) : Prop where
  target : call.target ≠ .this
  operands : ∀ operand ∈ call.operands, operand.isDetached = true

namespace Instr

/-- Whether an instruction reads or writes a field, itself or inside another one. -/
def accessesField : Instr → Bool
  | .getField _ _ _ | .putField _ _ _ _ => true
  | .assign _ rhs _ => rhs.accessesField
  | .discard inner => inner.accessesField
  | _ => false

/-- An instruction that has nothing to do with the receiver. -/
@[mk_iff]
structure Detached (instr : Instr) : Prop where
  operands : ∀ operand ∈ instr.operands, operand.isDetached = true
  fields : instr.accessesField = false
  calls : ∀ call ∈ instr.calls, call.target ≠ .this

/-- An instruction that only directs control. -/
theorem detached_of_bare {instr : Instr} (operands : instr.operands = [])
    (fields : instr.accessesField = false) (calls : instr.calls = []) : instr.Detached :=
  ⟨operands ▸ List.forall_mem_nil _, fields, calls ▸ List.forall_mem_nil _⟩

theorem detached_label (place : Label) : (Instr.label place).Detached :=
  detached_of_bare rfl rfl rfl

theorem detached_goto (target : Label) : (Instr.goto target).Detached :=
  detached_of_bare rfl rfl rfl

theorem Detached.store {rhs : Instr} (detached : rhs.Detached) (dest : String) (ty : Ty) :
    (Instr.assign dest rhs ty).Detached :=
  ⟨detached.operands, detached.fields, detached.calls⟩

theorem detached_call {call : Call} (detached : call.Detached) : (Instr.call call).Detached :=
  ⟨detached.operands, rfl, List.forall_mem_singleton.mpr detached.target⟩

theorem detached_standing {call : Call} (detached : call.Detached) :
    (Scope.standing call).Detached := by
  rw [Scope.standing]
  split
  · exact detached_call detached
  · exact ⟨detached.operands, rfl, List.forall_mem_singleton.mpr detached.target⟩

theorem detached_rightHandSide (scope : Scope) {operand : Operand}
    (detached : operand.isDetached = true) : (scope.rightHandSide operand).Detached := by
  cases operand with
  | field | this => cases detached
  | literal | var => exact ⟨List.forall_mem_singleton.mpr rfl, rfl, List.forall_mem_nil _⟩

end Instr

/-- No instruction has to do with the receiver. -/
def Detached (code : List Instr) : Prop := ∀ instr ∈ code, instr.Detached

@[simp] theorem detached_nil : Detached [] := List.forall_mem_nil _

@[simp] theorem detached_append {first second : List Instr} :
    Detached (first ++ second) ↔ Detached first ∧ Detached second :=
  List.forall_mem_append

@[simp] theorem detached_cons {instr : Instr} {rest : List Instr} :
    Detached (instr :: rest) ↔ instr.Detached ∧ Detached rest :=
  List.forall_mem_cons

theorem Detached.joined {code : List Instr} (detached : Detached code) (target : Label) :
    Detached (Lower.joined target code) := by
  rw [Lower.joined]
  split
  · exact detached
  · exact detached_append.mpr
      ⟨detached, detached_cons.mpr ⟨Instr.detached_goto target, detached_nil⟩⟩

theorem detached_diamond (number : Nat) (result : String) :
    Detached (Scope.diamond number result) := by
  simp [Scope.diamond, Instr.detached_iff, Instr.operands, Instr.accessesField, Instr.calls,
    Operand.bool, Operand.isDetached]

/-- The return that closes a method has no operand. -/
theorem Detached.close {code : List Instr} (detached : Detached code) (method : Signature) :
    Detached (method.close code) := by
  rw [Signature.close]
  split
  · exact detached_append.mpr ⟨detached, detached_cons.mpr ⟨Instr.detached_of_bare rfl rfl rfl, detached_nil⟩⟩
  · exact detached

/-! ### Source without `this` -/

/-- Whether an expression is the keyword `this`, without parentheses. -/
def Expr.isKeyword : Expr → Bool
  | .this _ => true
  | _ => false

/-- None of the expressions is `this`. -/
def Selfless (exprs : List Expr) : Prop := ∀ expr ∈ exprs, expr.isKeyword = false

@[simp] theorem selfless_append {first second : List Expr} :
    Selfless (first ++ second) ↔ Selfless first ∧ Selfless second :=
  List.forall_mem_append

theorem Selfless.stripped {expr : Expr} (selfless : Selfless (everyExpr.onExpr expr)) :
    Selfless (everyExpr.onExpr expr.stripped) :=
  forall_onExpr_stripped selfless

/-- A receiver in which `this` does not stand is not `this` in parentheses either. -/
theorem Selfless.isThis {receiver : Expr} (selfless : Selfless (everyExpr.onExpr receiver)) :
    receiver.isThis = false := by
  by_contra attached
  rw [Bool.not_eq_false] at attached
  obtain ⟨pos, same⟩ := Expr.stripped_of_isThis attached
  have inside := selfless.stripped _ (mem_everyExpr _)
  rw [same] at inside
  cases inside

/-- What a phrase is made of does not mention `this`. -/
@[simp] def Phrase.SelflessParts : Phrase → Prop
  | .value expr _ _ | .jump expr _ _ => Selfless (everyExpr.onExpr expr)
  | .values items _ => ∀ expr ∈ items.map Prod.fst, Selfless (everyExpr.onExpr expr)
  | .fill _ _ _ items | .pack _ items _ =>
    ∀ item ∈ items, Selfless (everyExpr.onExpr item)
  | .target receiver _ _ _ =>
    ∀ expr, receiver = some expr → Selfless (everyExpr.onExpr expr)
  | .call receiver _ args _ _ =>
    (∀ expr, receiver = some expr → Selfless (everyExpr.onExpr expr)) ∧
      ∀ arg ∈ args, Selfless (everyExpr.onExpr arg)
  | .stmt single => Selfless (everyExpr.onStmt single)
  | .body stmts => ∀ stmt ∈ stmts, Selfless (everyExpr.onStmt stmt)

/-! ### All code of a static method -/

/-- A static method sees no fields. -/
theorem Scope.isField_eq_false {scope : Scope} (isStatic : scope.method.isStatic = true)
    {name : String} {found : Variable} (resolved : scope.lookup? name = some found) :
    found.isField = false := by
  rcases lookup?_cases resolved with ⟨_, -, notStatic, -⟩ | ⟨_, _, rfl, -⟩ | ⟨_, rfl, -⟩
  · rw [isStatic] at notStatic
    cases notStatic
  · rfl
  · rfl

/-- The code of a phrase is detached, and so is what it leaves. -/
def Phrase.Detaches (code : List Instr) : Phrase → Prop
  | .value _ _ result | .pack _ _ result => result.isDetached = true ∧ Detached code
  | .values _ results =>
    (∀ result ∈ results, result.isDetached = true) ∧ Detached code
  | .fill array _ _ _ => array.isDetached = true → Detached code
  | .target _ _ _ result =>
    result ≠ .this ∧ (∀ operand ∈ result.operands, operand.isDetached = true) ∧
      Detached code
  | .call _ _ _ _ result => result.Detached ∧ Detached code
  | .jump _ _ _ | .stmt _ | .body _ => Detached code

/-- A call is detached if what it is made on and its arguments are. -/
theorem Phrase.Detaches.call {receiver : Option Expr} {method : String} {args : List Expr}
    {expected returnType : Ty} {kind : CallKind} {target : CallTarget} {results : List Operand}
    {targetCode argsCode : List Instr}
    (onTarget : (Phrase.target receiver method kind target).Detaches targetCode)
    (onArgs : (∀ result ∈ results, result.isDetached = true) ∧ Detached argsCode) :
    (Phrase.call receiver method args expected ⟨kind, target, method, results, returnType⟩).Detaches
      (targetCode ++ argsCode) := by
  obtain ⟨notThis, targetDetached, targetCode⟩ := onTarget
  obtain ⟨argsDetached, argsCode⟩ := onArgs
  exact ⟨⟨notThis, List.forall_mem_append.mpr ⟨targetDetached, argsDetached⟩⟩,
    detached_append.mpr ⟨targetCode, argsCode⟩⟩

/-- Nothing attaches the code of a static method. The rules that would are those for a field, which
the method does not see, for `this`, which does not stand there, and for a receiver that is left
out, which only an instance method has. -/
theorem Lowers.detaches {scope : Scope} {phrase : Phrase} {before after : Counters}
    {code : List Instr} (lowers : Lowers scope phrase before code after)
    (isStatic : scope.method.isStatic = true) (selfless : phrase.SelflessParts) :
    phrase.Detaches code := by
  induction lowers with
  | int | bool | var => exact ⟨rfl, detached_nil⟩
  | field found => cases Scope.isField_eq_false isStatic found
  | this => cases selfless _ (mem_everyExpr _)
  | arith _ _ left right | index _ _ left right =>
    simp only [Phrase.SelflessParts, onExpr, selfless_append] at selfless
    obtain ⟨leftDetached, leftCode⟩ := left selfless.2.1
    obtain ⟨rightDetached, rightCode⟩ := right selfless.2.2
    refine ⟨rfl, ?_⟩
    simp [leftCode, rightCode, leftDetached, rightDetached, Instr.detached_iff, Instr.operands,
      Instr.accessesField, Instr.calls]
  | newObject =>
    refine ⟨rfl, ?_⟩
    simp [Instr.detached_iff, Instr.operands, Instr.accessesField, Instr.calls,
      Scope.constructorCall, Call.operands, CallTarget.operands, Operand.isDetached]
  | newArray _ inner | length _ inner =>
    simp only [Phrase.SelflessParts, onExpr, selfless_append] at selfless
    obtain ⟨innerDetached, innerCode⟩ := inner selfless.2
    refine ⟨rfl, ?_⟩
    simp [innerCode, innerDetached, Instr.detached_iff, Instr.operands, Instr.accessesField,
      Instr.calls]
  | callValue _ _ call =>
    obtain ⟨callDetached, callCode⟩ := call (forall_onExpr_call.mp selfless).2
    refine ⟨rfl, detached_append.mpr ⟨callCode, detached_cons.mpr ⟨?_, detached_nil⟩⟩⟩
    exact (Instr.detached_call callDetached).store _ _
  | arrayLiteral _ packed =>
    simp only [Phrase.SelflessParts, onExpr, selfless_append] at selfless
    exact packed (forall_onExprs.mp selfless.2)
  | paren _ inner | parenJump _ inner | not _ inner =>
    simp only [Phrase.SelflessParts, onExpr, selfless_append] at selfless
    exact inner selfless.2
  | materialize _ _ jump =>
    exact ⟨rfl, detached_append.mpr ⟨jump selfless, detached_diamond _ _⟩⟩
  | decided => exact detached_cons.mpr ⟨Instr.detached_goto _, detached_nil⟩
  | less _ _ left right =>
    simp only [Phrase.SelflessParts, onExpr, selfless_append] at selfless
    obtain ⟨leftDetached, leftCode⟩ := left selfless.2.1
    obtain ⟨rightDetached, rightCode⟩ := right selfless.2.2
    simp [Phrase.Detaches, leftCode, rightCode, leftDetached, rightDetached, Instr.detached_iff,
      Instr.operands, Condition.operands, Instr.accessesField, Instr.calls]
  | and _ _ left right | or _ _ left right =>
    simp only [Phrase.SelflessParts, onExpr, selfless_append] at selfless
    exact detached_append.mpr ⟨left selfless.2.1,
      detached_cons.mpr ⟨Instr.detached_label _, right selfless.2.2⟩⟩
  | nonZero _ _ value =>
    obtain ⟨valueDetached, valueCode⟩ := value selfless
    simp [Phrase.Detaches, valueCode, valueDetached, Instr.detached_iff, Instr.operands,
      Condition.operands, Instr.accessesField, Instr.calls]
  | noValues => exact ⟨List.forall_mem_nil _, detached_nil⟩
  | moreValues _ _ first rest =>
    obtain ⟨inFirst, inRest⟩ := List.forall_mem_cons.mp selfless
    obtain ⟨firstDetached, firstCode⟩ := first inFirst
    obtain ⟨restDetached, restCode⟩ := rest inRest
    exact ⟨List.forall_mem_cons.mpr ⟨firstDetached, restDetached⟩,
      detached_append.mpr ⟨firstCode, restCode⟩⟩
  | filled => exact fun _ => detached_nil
  | fillMore _ _ first rest =>
    intro arrayDetached
    obtain ⟨inFirst, inRest⟩ := List.forall_mem_cons.mp selfless
    obtain ⟨firstDetached, firstCode⟩ := first inFirst
    refine detached_append.mpr ⟨firstCode, detached_cons.mpr ⟨⟨?_, rfl, List.forall_mem_nil _⟩,
      rest inRest arrayDetached⟩⟩
    exact List.forall_mem_cons.mpr ⟨arrayDetached, List.forall_mem_cons.mpr
      ⟨rfl, List.forall_mem_singleton.mpr firstDetached⟩⟩
  | pack _ fill =>
    refine ⟨rfl, detached_cons.mpr ⟨⟨?_, rfl, List.forall_mem_nil _⟩, fill selfless rfl⟩⟩
    exact List.forall_mem_singleton.mpr rfl
  | implicitStatic | onClass => exact ⟨by simp, List.forall_mem_nil _, detached_nil⟩
  | implicitThis inInstance =>
    rw [isStatic] at inInstance
    cases inInstance
  | onThis isThis =>
    rw [(selfless _ rfl).isThis] at isThis
    cases isThis
  | onValue _ _ _ value =>
    obtain ⟨valueDetached, valueCode⟩ := value (selfless _ rfl)
    exact ⟨by simp, List.forall_mem_singleton.mpr valueDetached, valueCode⟩
  | unbound _ _ _ target values =>
    rw [Phrase.SelflessParts, Scope.map_fst_bareItems] at values
    exact .call (target selfless.1) (values selfless.2)
  | bound _ _ _ _ target values =>
    rw [Phrase.SelflessParts, Scope.map_fst_boundItems] at values
    exact .call (target selfless.1) (values selfless.2)
  | passed _ _ single _ _ _ target values =>
    rw [Phrase.SelflessParts, Scope.map_fst_passedItems single] at values
    exact .call (target selfless.1) (values selfless.2)
  | packed _ _ _ _ _ _ target values pack =>
    obtain ⟨inFixed, inTrailing⟩ := Scope.forall_take_and_drop.mpr selfless.2
    rw [Phrase.SelflessParts, Scope.map_fst_fixedItems] at values
    obtain ⟨argsDetached, argsCode⟩ := values inFixed
    obtain ⟨arrayDetached, packCode⟩ := pack inTrailing
    refine .call (target selfless.1) ⟨?_, detached_append.mpr ⟨argsCode, packCode⟩⟩
    exact List.forall_mem_append.mpr ⟨argsDetached, List.forall_mem_singleton.mpr arrayDetached⟩
  | block _ body =>
    simp only [Phrase.SelflessParts, onStmt, selfless_append] at selfless
    exact body (forall_onBody.mp selfless.2)
  | ifThen _ _ jump thenBranch =>
    simp only [Phrase.SelflessParts, onStmt, onCondition, selfless_append] at selfless
    have jumpCode : Detached _ := jump selfless.2.1.2
    have thenCode : Detached _ := thenBranch selfless.2.2
    simp [Phrase.Detaches, jumpCode, thenCode.joined, Instr.detached_label]
  | ifElse _ _ _ jump thenBranch elseBranch =>
    simp only [Phrase.SelflessParts, onStmt, onCondition, selfless_append] at selfless
    have jumpCode : Detached _ := jump selfless.2.1.1.2
    have thenCode : Detached _ := thenBranch selfless.2.1.2
    have elseCode : Detached _ := elseBranch selfless.2.2
    simp [Phrase.Detaches, jumpCode, thenCode.joined, elseCode, Instr.detached_label]
  | whileLoop _ _ jump body =>
    simp only [Phrase.SelflessParts, onStmt, onCondition, selfless_append] at selfless
    have jumpCode : Detached _ := jump selfless.2.1.2
    have bodyCode : Detached _ := body selfless.2.2
    simp [Phrase.Detaches, jumpCode, bodyCode, Instr.detached_label, Instr.detached_goto]
  | evalCall isCall _ call =>
    simp only [Phrase.SelflessParts, onStmt, selfless_append] at selfless
    have inCall := selfless.2.stripped
    rw [isCall] at inCall
    obtain ⟨callDetached, callCode⟩ := call (forall_onExpr_call.mp inCall).2
    exact detached_append.mpr ⟨callCode,
      detached_cons.mpr ⟨Instr.detached_standing callDetached, detached_nil⟩⟩
  | eval _ _ value =>
    simp only [Phrase.SelflessParts, onStmt, selfless_append] at selfless
    exact (value selfless.2).2
  | assignField _ found => cases Scope.isField_eq_false isStatic found
  | assignVariable _ _ _ _ value =>
    simp only [Phrase.SelflessParts, onStmt, selfless_append] at selfless
    obtain ⟨valueDetached, valueCode⟩ := value selfless.2.2
    refine detached_append.mpr ⟨valueCode, detached_cons.mpr ⟨?_, detached_nil⟩⟩
    exact (Instr.detached_rightHandSide scope valueDetached).store _ _
  | assignElement indexed _ _ _ array position value =>
    simp only [Phrase.SelflessParts, onStmt, selfless_append] at selfless
    have inTarget := selfless.2.1.stripped
    rw [indexed] at inTarget
    simp only [onExpr, selfless_append] at inTarget
    obtain ⟨arrayDetached, arrayCode⟩ := array inTarget.2.1
    obtain ⟨positionDetached, positionCode⟩ := position inTarget.2.2
    obtain ⟨valueDetached, valueCode⟩ := value selfless.2.2
    simp [Phrase.Detaches, arrayCode, positionCode, valueCode, arrayDetached, positionDetached,
      valueDetached, Instr.detached_iff, Instr.operands, Instr.accessesField, Instr.calls]
  | returnNothing => exact detached_cons.mpr ⟨Instr.detached_of_bare rfl rfl rfl, detached_nil⟩
  | returnValue _ value =>
    simp only [Phrase.SelflessParts, onStmt, selfless_append] at selfless
    obtain ⟨valueDetached, valueCode⟩ := value selfless.2
    simp [Phrase.Detaches, valueCode, valueDetached, Instr.detached_iff, Instr.operands,
      Instr.accessesField, Instr.calls]
  | noStmts => exact detached_nil
  | moreStmts _ _ first rest =>
    obtain ⟨inFirst, inRest⟩ := List.forall_mem_cons.mp selfless
    exact detached_append.mpr ⟨first inFirst, rest inRest⟩

/-- A method stays static, or not. -/
theorem Scope.Compiles.isStatic_eq {scope : Scope} {body : List Stmt} {method : MethodCode}
    (compiles : scope.Compiles body method) : method.isStatic = scope.method.isStatic := by
  obtain ⟨_, _, _, -, rfl⟩ := compiles
  rfl

/-- The code of a static method in whose body `this` does not stand is detached. -/
theorem Scope.Compiles.detached {scope : Scope} {body : List Stmt} {method : MethodCode}
    (compiles : scope.Compiles body method) (isStatic : scope.method.isStatic = true)
    (selfless : Selfless (everyExpr.onBody body)) : Detached method.body := by
  obtain ⟨before, code, after, lowers, rfl⟩ := compiles
  have detached : Detached code := lowers.detaches isStatic (forall_onBody.mp selfless)
  exact detached.close scope.method

/-! ### What the check on receivers reports -/

namespace Check

/-- Where receivers are in order, `this` does not stand in a static method. -/
theorem receivers_imply_selfless (entry : Option String) {scope : Scope}
    (isStatic : scope.method.isStatic = true) :
    (receivers entry scope).Implies (fun note => note.isError = false) everyExpr
      (fun expr => expr.isKeyword = false) where
  stmt _ _ := nofun
  condition _ _ := nofun
  expr expr clean := by
    rw [everyExpr, List.forall_mem_singleton]
    cases expr with
    | this pos =>
      obtain ⟨refusal, refused⟩ := refusal?_of_isStatic entry isStatic
      simp only [receivers, refused, receiverMisuse] at clean
      cases List.forall_mem_singleton.mp clean
    | _ => rfl

end Check

/-- If the check on receivers reports no error, then the code of each static method is detached. -/
theorem ClassTable.detached_of_lower {table : ClassTable} {program : Program} {before : Counters}
    {code : ClassCode} {entry : Option String} {notes : List Diagnostic}
    (ran : (Check.thisUsage entry).run program table = .ok notes)
    (clean : ∀ note ∈ notes, note.isError = false)
    (lowered : (table.lower program before).1 = .ok code) {method : MethodCode}
    (member : method ∈ code.methods) (isStatic : method.isStatic = true) :
    Detached method.body := by
  obtain ⟨scope, body, compiles, silent⟩ := compiles_of_overBodies ran clean lowered member
  have inStatic := compiles.isStatic_eq.symm.trans isStatic
  exact compiles.detached inStatic ((Check.receivers_imply_selfless entry inStatic).onBody silent)

end JavaMinus
