/-
This file says that lowered code can be expressed in assembly. An instruction is
expressible if it is of a form that assembly has: a right-hand side is something
that has a value, a call is made on what its kind asks for and all the types of
its descriptor can be described, a call that is not discarded yields nothing, and
a return has a value unless there is none to return. Types can be described unless
they are unknown or arrays of nothing.

If the types of all declarations can be described, then so can those of all
operands and results, because lowering takes every type from a declaration, from
a new object, or from what is asked for; and what is asked for is declared or
built in. Analysis plays no part in this.
-/

import JavaMinus.Proofs.Check.Types
import JavaMinus.Proofs.Lowering.Shape

namespace JavaMinus

open Observer

/-! ### Types that can be described -/

/-- Whether a type says something, and is not an array of nothing. -/
def Ty.isDescribable (ty : Ty) : Bool := !ty.isUnknown && ty != .arrayOf "void"

theorem Ty.isDescribable_iff {ty : Ty} :
    ty.isDescribable = true ↔ ty.isUnknown = false ∧ ty ≠ .arrayOf "void" := by
  simp [isDescribable]

/-- The types of all declarations can be described. -/
structure ClassTable.Describable (table : ClassTable) : Prop where
  className : table.className ≠ ""
  fields : ∀ field ∈ table.fields, field.ty.isDescribable = true
  returnTypes : ∀ method ∈ table.methods, method.returnType.isDescribable = true
  params : ∀ method ∈ table.methods, ∀ param ∈ method.params, param.ty.isDescribable = true
  locals : ∀ method ∈ table.methods, ∀ binding ∈ method.locals, binding.ty.isDescribable = true

namespace Scope

/-- The scope is that of a method whose class has describable types only. -/
structure Describable (scope : Scope) : Prop where
  table : scope.table.Describable
  declared : scope.method ∈ scope.table.methods

variable {scope : Scope}

theorem Describable.variable (describable : scope.Describable) {name : String} {found : Variable}
    (resolved : scope.lookup? name = some found) : found.ty.isDescribable = true := by
  rcases lookup?_cases resolved with ⟨binding, rfl, -, isField⟩ | ⟨_, binding, rfl, isParam⟩ |
    ⟨binding, rfl, isLocal⟩
  · exact describable.table.fields binding (List.mem_of_find?_eq_some isField)
  · simp only [Signature.param?, Option.bind_eq_bind, Option.bind_eq_some_iff, Option.pure_def,
      Option.some.injEq, Prod.mk.injEq] at isParam
    obtain ⟨_, -, param, at?, rfl, rfl⟩ := isParam
    exact describable.table.params _ describable.declared param (List.mem_of_getElem? at?)
  · exact describable.table.locals _ describable.declared binding
      (List.mem_of_find?_eq_some isLocal)

/-- The method that a call binds to is one of the class. -/
theorem mem_methods_of_callee? {receiver : Option Expr} {method : String} {callee : Signature}
    (bound : scope.callee? receiver method = some callee) : callee ∈ scope.table.methods :=
  List.mem_of_find?_eq_some (method?_of_callee? bound)

theorem Describable.returnType (describable : scope.Describable) {receiver : Option Expr}
    {method : String} {callee : Signature} (bound : scope.callee? receiver method = some callee) :
    callee.returnType.isDescribable = true :=
  describable.table.returnTypes callee (mem_methods_of_callee? bound)

/-- No expression has an array of nothing as its type. -/
theorem Describable.typeOf_ne (describable : scope.Describable) (expr : Expr) :
    scope.typeOf expr ≠ .arrayOf "void" := by
  induction expr with
  | literal pos value => cases value <;> simp [typeOf, Ty.arrayOf, Ty.int, Ty.boolean, Ty.named]
  | name pos text =>
    rw [typeOf, nameType]
    split
    · next found resolved => exact (Ty.isDescribable_iff.mp (describable.variable resolved)).2
    · split <;> simp [Ty.arrayOf, Ty.unknown, Ty.named]
  | this => simp [typeOf, ClassTable.classType, Ty.arrayOf, Ty.named]
  | binary pos op =>
    rw [typeOf]
    split <;> simp [Ty.arrayOf, Ty.int, Ty.boolean, Ty.named]
  | call pos receiver method args =>
    rw [typeOf_call]
    cases bound : scope.callee? receiver method with
    | none => simp [Ty.arrayOf, Ty.unknown, Ty.named]
    | some callee =>
      exact (Ty.isDescribable_iff.mp (describable.returnType bound)).2
  | paren pos inner inductionHypothesis => rwa [typeOf]
  | newArray | arrayLiteral => simp [typeOf, Ty.arrayOf, Ty.intArray]
  | _ => simp [typeOf, Ty.arrayOf, Ty.int, Ty.boolean, Ty.named]

theorem Describable.bareItem_ne (describable : scope.Describable) (arg : Expr) :
    (scope.bareItem arg).2 ≠ .arrayOf "void" := by
  rw [bareItem]
  dsimp only
  split
  · simp [Ty.arrayOf, Ty.int, Ty.named]
  · exact describable.typeOf_ne arg

/-- The parameters of the method that a call binds to ask for describable types. -/
theorem Describable.fixedItems_ne (describable : scope.Describable) {receiver : Option Expr}
    {method : String} {callee : Signature} (bound : scope.callee? receiver method = some callee)
    (args : List Expr) : ∀ item ∈ fixedItems callee args, item.2 ≠ .arrayOf "void" := by
  intro item member
  obtain ⟨⟨arg, param⟩, zipped, rfl⟩ := List.mem_map.mp member
  have isParam := List.mem_of_mem_take (List.of_mem_zip zipped).2
  exact (Ty.isDescribable_iff.mp
    (describable.table.params callee (mem_methods_of_callee? bound) param isParam)).2

theorem Describable.restParam (describable : scope.Describable) {receiver : Option Expr}
    {method : String} {callee : Signature} (bound : scope.callee? receiver method = some callee)
    {param : Binding} (rest : callee.restParam? = some param) : param.ty.isDescribable = true := by
  refine describable.table.params callee (mem_methods_of_callee? bound) param ?_
  rw [Signature.restParam?] at rest
  split at rest
  · exact List.mem_of_getLast? rest
  · cases rest

/-- What is packed into an array for a parameter is not itself an array, and the array can be
described. -/
theorem Describable.restElement (describable : scope.Describable) {receiver : Option Expr}
    {method : String} {callee : Signature} (bound : scope.callee? receiver method = some callee)
    {param : Binding} (rest : callee.restParam? = some param) :
    param.ty.element?.getD .int ≠ .arrayOf "void" ∧
      (Ty.arrayOf (param.ty.element?.getD .int).base).isDescribable = true := by
  have described := describable.restParam bound rest
  rw [Ty.element?]
  split
  · next isArray =>
    refine ⟨by simp [Ty.named, Ty.arrayOf], ?_⟩
    have same : Ty.arrayOf param.ty.base = param.ty := by rw [Ty.arrayOf, ← isArray]
    rwa [← same] at described
  · exact ⟨by decide, by decide⟩

end Scope

/-! ### Instructions that can be expressed -/

/-- Whether a call of this kind can be made on this target. -/
def CallKind.meets : CallKind → CallTarget → Bool
  | .constructor, _ | .static, .ofClass _ | .virtual, .this | .virtual, .receiver _ => true
  | _, _ => false

/-- Whether a call is made on what its kind asks for, and its descriptor can be written. -/
def Call.isExpressible (call : Call) : Bool :=
  call.kind.meets call.target && call.args.all (fun arg => arg.ty.isDescribable) &&
    call.returnType.isDescribable

namespace Instr

/-- Whether an instruction is a right-hand side that can be expressed. -/
def hasValue : Instr → Bool
  | .value _ | .arith _ _ _ _ | .newObject _ | .newArray _ | .loadElement _ _
  | .arrayLength _ => true
  | .call invocation => invocation.isExpressible
  | .getField _ _ ty => ty.isDescribable
  | _ => false

/-- Whether an instruction can be expressed where it stands. -/
def isExpressible : Instr → Bool
  | .assign _ rhs _ => rhs.hasValue
  | .call invocation => invocation.returnType.isVoid && invocation.isExpressible
  | .discard (.call invocation) => invocation.isExpressible
  | .putField _ _ ty _ => ty.isDescribable
  | .storeElement _ _ _ | .label _ | .goto _ | .branch _ _ => true
  | .ret result ty => ty.isVoid || result.isSome
  | _ => false

theorem hasValue_rightHandSide {scope : Scope} {operand : Operand}
    (described : operand.ty.isDescribable = true) :
    (scope.rightHandSide operand).hasValue = true := by
  cases operand with
  | field name ty => exact described
  | _ => rfl

/-- All of these instructions can be expressed. -/
def Expressible (code : List Instr) : Prop := ∀ instr ∈ code, instr.isExpressible = true

@[simp] theorem expressible_nil : Expressible [] := nofun

@[simp] theorem expressible_append {first second : List Instr} :
    Expressible (first ++ second) ↔ Expressible first ∧ Expressible second :=
  List.forall_mem_append

@[simp] theorem expressible_cons {instr : Instr} {rest : List Instr} :
    Expressible (instr :: rest) ↔ instr.isExpressible = true ∧ Expressible rest :=
  List.forall_mem_cons

theorem Expressible.joined {code : List Instr} (expressible : Expressible code) (target : Label) :
    Expressible (Lower.joined target code) := by
  rw [Lower.joined]
  split
  · exact expressible
  · exact expressible_append.mpr ⟨expressible, by simp [isExpressible]⟩

theorem expressible_diamond (number : Nat) (result : String) :
    Expressible (Scope.diamond number result) := by
  simp [Scope.diamond, isExpressible, hasValue]

theorem isExpressible_standing {call : Call} (expressible : call.isExpressible = true) :
    (Scope.standing call).isExpressible = true := by
  rw [Scope.standing]
  split
  · next isVoid => rw [isExpressible, isVoid, expressible, Bool.and_self]
  · exact expressible

end Instr

open Instr

/-! ### All lowered code -/

/-- Whether a node leaves nothing out that assembly needs: the class of a new object has a name,
and a return without a value stands in a method that yields nothing. -/
def Scope.isComplete (scope : Scope) : Node → Bool
  | .expr (.newObject _ className) => className != ""
  | .stmt (.ret _ none) => scope.method.returnType.isVoid
  | _ => true

/-- No node leaves anything out. -/
def Scope.Complete (scope : Scope) (nodes : List Node) : Prop :=
  ∀ node ∈ nodes, scope.isComplete node = true

@[simp] theorem Scope.complete_append {scope : Scope} {first second : List Node} :
    scope.Complete (first ++ second) ↔ scope.Complete first ∧ scope.Complete second :=
  List.forall_mem_append

theorem Scope.Complete.stripped {scope : Scope} {expr : Expr}
    (complete : scope.Complete (everyNode.onExpr expr)) :
    scope.Complete (everyNode.onExpr expr.stripped) :=
  forall_onExpr_stripped complete

/-- What a phrase is made of leaves nothing out. -/
@[simp] def Phrase.Complete (scope : Scope) : Phrase → Prop
  | .value expr _ _ | .jump expr _ _ => scope.Complete (everyNode.onExpr expr)
  | .values items _ => ∀ expr ∈ items.map Prod.fst, scope.Complete (everyNode.onExpr expr)
  | .fill _ _ _ items | .pack _ items _ => ∀ item ∈ items, scope.Complete (everyNode.onExpr item)
  | .target receiver _ _ _ => ∀ expr, receiver = some expr → scope.Complete (everyNode.onExpr expr)
  | .call receiver _ args _ _ =>
    (∀ expr, receiver = some expr → scope.Complete (everyNode.onExpr expr)) ∧
      ∀ arg ∈ args, scope.Complete (everyNode.onExpr arg)
  | .stmt single => scope.Complete (everyNode.onStmt single)
  | .body stmts => ∀ stmt ∈ stmts, scope.Complete (everyNode.onStmt stmt)

/-- A call that can be expressed once its result is, if that is what was asked for. -/
structure Call.ExpressedFor (call : Call) (expected : Ty) : Prop where
  meets : call.kind.meets call.target = true
  args : ∀ arg ∈ call.args, arg.ty.isDescribable = true
  result : call.returnType = expected ∨ call.returnType.isDescribable = true

theorem Call.ExpressedFor.isExpressible {call : Call} {expected : Ty}
    (expressed : call.ExpressedFor expected)
    (described : call.returnType.isDescribable = true) : call.isExpressible = true := by
  rw [Call.isExpressible, expressed.meets, List.all_eq_true.mpr expressed.args, described]
  rfl

/-- The code of a phrase can be expressed, and what it leaves has a type that can be described.
This asks of what is expected only that it is not an array of nothing: a value that takes its type
from there is refused if the type is unknown. -/
def Phrase.Expressed (code : List Instr) : Phrase → Prop
  | .value _ expected result => expected ≠ .arrayOf "void" →
    result.ty.isDescribable = true ∧ Expressible code
  | .values items results => (∀ item ∈ items, item.2 ≠ .arrayOf "void") →
    (∀ result ∈ results, result.ty.isDescribable = true) ∧ Expressible code
  | .fill _ element _ _ => element ≠ .arrayOf "void" → Expressible code
  | .pack element _ result => element ≠ .arrayOf "void" →
    (Ty.arrayOf element.base).isDescribable = true →
    result.ty.isDescribable = true ∧ Expressible code
  | .target _ _ kind result => kind.meets result = true ∧ Expressible code
  | .call _ _ _ expected result => result.ExpressedFor expected ∧ Expressible code
  | .jump _ _ _ | .stmt _ | .body _ => Expressible code

theorem Lowers.expressed {scope : Scope} {phrase : Phrase} {before after : Counters}
    {code : List Instr} (lowers : Lowers scope phrase before code after)
    (describable : scope.Describable) (complete : phrase.Complete scope) :
    phrase.Expressed code := by
  induction lowers with
  | int | bool => exact fun _ => ⟨rfl, expressible_nil⟩
  | field found => exact fun _ => ⟨describable.variable found, expressible_nil⟩
  | var resolved => exact fun _ => ⟨describable.variable resolved, expressible_nil⟩
  | this =>
    refine fun _ => ⟨?_, expressible_nil⟩
    simpa [Ty.isDescribable, Ty.isUnknown, Operand.ty, ClassTable.classType, Ty.named, Ty.arrayOf]
      using describable.table.className
  | arith _ _ left right | index _ _ left right =>
    simp only [Phrase.Complete, onExpr, Scope.complete_append] at complete
    obtain ⟨-, leftExpressed⟩ := left complete.2.1 (by decide)
    obtain ⟨-, rightExpressed⟩ := right complete.2.2 (by decide)
    exact fun _ => ⟨rfl, by simp [leftExpressed, rightExpressed, isExpressible, hasValue]⟩
  | @newObject pos className =>
    have named := complete (.expr (.newObject pos className)) (by simp [onExpr])
    refine fun _ => ⟨?_, ?_⟩
    · simpa [Scope.isComplete, Ty.isDescribable, Ty.isUnknown, Operand.ty, Ty.named, Ty.arrayOf]
        using named
    · simp [isExpressible, hasValue, Call.isExpressible, Scope.constructorCall, CallKind.meets,
        Ty.isVoid, Ty.isDescribable, Ty.isUnknown, Ty.void, Ty.named, Ty.arrayOf]
  | newArray _ inner | length _ inner =>
    simp only [Phrase.Complete, onExpr, Scope.complete_append] at complete
    obtain ⟨-, innerExpressed⟩ := inner complete.2 (by decide)
    exact fun _ => ⟨rfl, by simp [innerExpressed, isExpressible, hasValue]⟩
  | callValue _ valued call =>
    intro notVoids
    obtain ⟨-, onParts⟩ := forall_onExpr_call.mp complete
    obtain ⟨expressed, callExpressed⟩ := call onParts
    rw [Bool.or_eq_false_iff] at valued
    have described := expressed.result.elim
      (fun same => Ty.isDescribable_iff.mpr ⟨valued.2, same ▸ notVoids⟩) id
    exact ⟨described, by simp [callExpressed, isExpressible, hasValue,
      expressed.isExpressible described]⟩
  | arrayLiteral _ packed =>
    simp only [Phrase.Complete, onExpr, Scope.complete_append] at complete
    exact fun _ => packed (forall_onExprs.mp complete.2) (by decide) rfl
  | paren _ inner | parenJump _ inner | not _ inner =>
    simp only [Phrase.Complete, onExpr, Scope.complete_append] at complete
    exact inner complete.2
  | materialize _ _ jump =>
    exact fun _ => ⟨rfl, expressible_append.mpr ⟨jump complete, expressible_diamond _ _⟩⟩
  | decided => exact expressible_cons.mpr ⟨rfl, expressible_nil⟩
  | less _ _ left right =>
    simp only [Phrase.Complete, onExpr, Scope.complete_append] at complete
    obtain ⟨-, leftExpressed⟩ := left complete.2.1 (by decide)
    obtain ⟨-, rightExpressed⟩ := right complete.2.2 (by decide)
    simp [Phrase.Expressed, leftExpressed, rightExpressed, isExpressible]
  | and _ _ left right | or _ _ left right =>
    simp only [Phrase.Complete, onExpr, Scope.complete_append] at complete
    exact expressible_append.mpr ⟨left complete.2.1,
      expressible_cons.mpr ⟨rfl, right complete.2.2⟩⟩
  | nonZero _ _ value =>
    obtain ⟨-, expressed⟩ := value complete (by decide)
    simp [Phrase.Expressed, expressed, isExpressible]
  | noValues => exact fun _ => ⟨List.forall_mem_nil _, expressible_nil⟩
  | moreValues _ _ first rest =>
    intro asked
    obtain ⟨onFirst, onRest⟩ := List.forall_mem_cons.mp complete
    obtain ⟨firstAsked, restAsked⟩ := List.forall_mem_cons.mp asked
    obtain ⟨firstDescribed, firstExpressed⟩ := first onFirst firstAsked
    obtain ⟨restDescribed, restExpressed⟩ := rest onRest restAsked
    exact ⟨List.forall_mem_cons.mpr ⟨firstDescribed, restDescribed⟩,
      expressible_append.mpr ⟨firstExpressed, restExpressed⟩⟩
  | filled => exact fun _ => expressible_nil
  | fillMore _ _ first rest =>
    intro notVoids
    obtain ⟨onFirst, onRest⟩ := List.forall_mem_cons.mp complete
    exact expressible_append.mpr ⟨(first onFirst notVoids).2,
      expressible_cons.mpr ⟨rfl, rest onRest notVoids⟩⟩
  | pack _ fill =>
    intro notVoids described
    exact ⟨described, expressible_cons.mpr ⟨rfl, fill complete notVoids⟩⟩
  | implicitStatic | implicitThis | onThis | onClass => exact ⟨rfl, expressible_nil⟩
  | onValue _ _ _ value => exact ⟨rfl, (value (complete _ rfl) (by decide)).2⟩
  | unbound _ _ _ target values =>
    rw [Phrase.Complete, Scope.map_fst_bareItems] at values
    obtain ⟨meets, targetExpressed⟩ := target complete.1
    obtain ⟨described, argsExpressed⟩ := values complete.2
      (List.forall_mem_map.mpr fun arg _ => describable.bareItem_ne arg)
    exact ⟨⟨meets, described, .inl rfl⟩, expressible_append.mpr ⟨targetExpressed, argsExpressed⟩⟩
  | bound callee _ _ _ target values =>
    rw [Phrase.Complete, Scope.map_fst_boundItems] at values
    obtain ⟨meets, targetExpressed⟩ := target complete.1
    obtain ⟨described, argsExpressed⟩ := values complete.2
      (List.forall_mem_append.mpr ⟨describable.fixedItems_ne callee _,
        List.forall_mem_map.mpr fun arg _ => describable.bareItem_ne arg⟩)
    exact ⟨⟨meets, described, .inr (describable.returnType callee)⟩,
      expressible_append.mpr ⟨targetExpressed, argsExpressed⟩⟩
  | passed callee rest single _ _ _ target values =>
    rw [Phrase.Complete, Scope.map_fst_passedItems single] at values
    obtain ⟨meets, targetExpressed⟩ := target complete.1
    have notVoids := (Ty.isDescribable_iff.mp (describable.restParam callee rest)).2
    obtain ⟨described, argsExpressed⟩ := values complete.2
      (List.forall_mem_append.mpr ⟨describable.fixedItems_ne callee _,
        List.forall_mem_singleton.mpr notVoids⟩)
    exact ⟨⟨meets, described, .inr (describable.returnType callee)⟩,
      expressible_append.mpr ⟨targetExpressed, argsExpressed⟩⟩
  | packed callee rest _ _ _ _ target values pack =>
    obtain ⟨onFixed, onTrailing⟩ := Scope.forall_take_and_drop.mpr complete.2
    rw [Phrase.Complete, Scope.map_fst_fixedItems] at values
    obtain ⟨meets, targetExpressed⟩ := target complete.1
    obtain ⟨described, argsExpressed⟩ := values onFixed (describable.fixedItems_ne callee _)
    obtain ⟨notVoids, asArray⟩ := describable.restElement callee rest
    obtain ⟨arrayDescribed, packExpressed⟩ := pack onTrailing notVoids asArray
    exact ⟨⟨meets, List.forall_mem_append.mpr
        ⟨described, List.forall_mem_singleton.mpr arrayDescribed⟩,
        .inr (describable.returnType callee)⟩,
      expressible_append.mpr ⟨targetExpressed,
        expressible_append.mpr ⟨argsExpressed, packExpressed⟩⟩⟩
  | block _ body =>
    simp only [Phrase.Complete, onStmt, Scope.complete_append] at complete
    exact body (forall_onBody.mp complete.2)
  | ifThen _ _ jump thenBranch =>
    simp only [Phrase.Complete, onStmt, onCondition, Scope.complete_append] at complete
    have jumpExpressed : Expressible _ := jump complete.2.1.2
    have thenExpressed : Expressible _ := thenBranch complete.2.2
    simp [Phrase.Expressed, jumpExpressed, thenExpressed.joined, isExpressible]
  | ifElse _ _ _ jump thenBranch elseBranch =>
    simp only [Phrase.Complete, onStmt, onCondition, Scope.complete_append] at complete
    have jumpExpressed : Expressible _ := jump complete.2.1.1.2
    have thenExpressed : Expressible _ := thenBranch complete.2.1.2
    have elseExpressed : Expressible _ := elseBranch complete.2.2
    simp [Phrase.Expressed, jumpExpressed, thenExpressed.joined, elseExpressed, isExpressible]
  | whileLoop _ _ jump body =>
    simp only [Phrase.Complete, onStmt, onCondition, Scope.complete_append] at complete
    have jumpExpressed : Expressible _ := jump complete.2.1.2
    have bodyExpressed : Expressible _ := body complete.2.2
    simp [Phrase.Expressed, jumpExpressed, bodyExpressed, isExpressible]
  | evalCall isCall _ call =>
    simp only [Phrase.Complete, onStmt, Scope.complete_append] at complete
    have onCall := complete.2.stripped
    rw [isCall] at onCall
    obtain ⟨expressed, callExpressed⟩ := call (forall_onExpr_call.mp onCall).2
    have described := expressed.result.elim (fun same => by rw [same]; rfl) id
    exact expressible_append.mpr ⟨callExpressed, expressible_cons.mpr
      ⟨isExpressible_standing (expressed.isExpressible described), expressible_nil⟩⟩
  | eval _ _ value =>
    simp only [Phrase.Complete, onStmt, Scope.complete_append] at complete
    exact (value complete.2 (by decide)).2
  | assignField _ found _ value =>
    simp only [Phrase.Complete, onStmt, Scope.complete_append] at complete
    have described := describable.variable found
    obtain ⟨-, expressed⟩ := value complete.2.2 (Ty.isDescribable_iff.mp described).2
    exact expressible_append.mpr ⟨expressed, expressible_cons.mpr ⟨described, expressible_nil⟩⟩
  | assignVariable _ resolved _ _ value =>
    simp only [Phrase.Complete, onStmt, Scope.complete_append] at complete
    have described := describable.variable resolved
    obtain ⟨resultDescribed, expressed⟩ := value complete.2.2 (Ty.isDescribable_iff.mp described).2
    exact expressible_append.mpr ⟨expressed, expressible_cons.mpr
      ⟨hasValue_rightHandSide resultDescribed, expressible_nil⟩⟩
  | assignElement indexed _ _ _ array position value =>
    simp only [Phrase.Complete, onStmt, Scope.complete_append] at complete
    have onTarget := complete.2.1.stripped
    rw [indexed] at onTarget
    simp only [onExpr, Scope.complete_append] at onTarget
    obtain ⟨-, arrayExpressed⟩ := array onTarget.2.1 (by decide)
    obtain ⟨-, positionExpressed⟩ := position onTarget.2.2 (by decide)
    obtain ⟨-, valueExpressed⟩ := value complete.2.2 (by decide)
    simp [Phrase.Expressed, arrayExpressed, positionExpressed, valueExpressed, isExpressible]
  | @returnNothing pos =>
    have isVoid : scope.method.returnType.isVoid = true :=
      complete (.stmt (.ret pos none)) (by simp [onStmt])
    simp [Phrase.Expressed, isExpressible, isVoid]
  | returnValue _ value =>
    simp only [Phrase.Complete, onStmt, Scope.complete_append] at complete
    have returns := describable.table.returnTypes _ describable.declared
    obtain ⟨-, expressed⟩ := value complete.2 (Ty.isDescribable_iff.mp returns).2
    simp [Phrase.Expressed, expressed, isExpressible]
  | noStmts => exact expressible_nil
  | moreStmts _ _ first rest =>
    obtain ⟨onFirst, onRest⟩ := List.forall_mem_cons.mp complete
    exact expressible_append.mpr ⟨first onFirst, rest onRest⟩

/-- The code of a method can be expressed, also with the return that is added to it. -/
theorem Scope.Compiles.expressible {scope : Scope} {body : List Stmt} {method : MethodCode}
    (compiles : scope.Compiles body method) (describable : scope.Describable)
    (complete : scope.Complete (everyNode.onBody body)) : Expressible method.body := by
  obtain ⟨before, code, after, lowers, rfl⟩ := compiles
  have expressed : Expressible code := lowers.expressed describable (forall_onBody.mp complete)
  show Expressible (scope.method.close code)
  rcases scope.method.close_cases code with ⟨-, added⟩ | ⟨same, -⟩
  · rw [added]
    exact expressible_append.mpr ⟨expressed, expressible_cons.mpr ⟨rfl, expressible_nil⟩⟩
  · rwa [same]

end JavaMinus
