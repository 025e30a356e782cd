/-
This file says exactly which programs are lowered, whatever the checks say about
them. An occurrence is an expression together with the role in which it stands:
as a statement, as what is assigned to, as the receiver of a call, or as a value
that is asked for at a type. The role follows from the place alone; parentheses
hand theirs on to what they enclose.

Lowering succeeds if every occurrence is permitted: a name stands for a variable,
unless it is a receiver and names a known class; a call without a receiver does
not ask a static method for an instance method; a call that does not stand as a
statement yields something, by its method or by what is asked for; and what is
assigned to is a name or an element. Nothing else makes lowering fail.
-/

import JavaMinus.Check.Operand
import JavaMinus.Proofs.Lowering.Success

namespace JavaMinus

/-! ### Occurrences -/

/-- The role of an expression in the place where it stands. -/
inductive Role
  /-- The expression stands as a statement. -/
  | statement
  /-- The expression is assigned to. -/
  | target
  /-- A call is made on the expression. -/
  | receiver
  /-- The value of the expression is asked for at a type. -/
  | value (expected : Ty)
deriving DecidableEq, Repr, Inhabited

/-- The type that is asked for, if one is. -/
def Role.expected : Role → Ty
  | .value expected => expected
  | _ => .unknown

/-- An expression in its role. -/
structure Occurrence where
  expr : Expr
  role : Role
deriving Repr, Inhabited

namespace Signature

/-- The type that a call asks of the argument at a position: that of the parameter, or of what
trailing arguments are packed into, and else an integer. -/
def argumentType (callee : Option Signature) (position : Nat) : Ty :=
  match callee with
  | none => .int
  | some signature =>
    if position < signature.fixedArity then
      (signature.params[position]?.map Binding.ty).getD .int
    else signature.restElement?.getD .int

end Signature

namespace Scope

mutual

/-- The occurrences in an expression, itself first. -/
def occurrences (scope : Scope) (role : Role) (expr : Expr) : List Occurrence :=
  ⟨expr, role⟩ ::
    match expr with
    | .literal _ _ | .name _ _ | .this _ | .newObject _ _ => []
    | .binary _ op left right =>
      scope.occurrences (.value (Check.operandType op)) left ++
        scope.occurrences (.value (Check.operandType op)) right
    | .not _ operand => scope.occurrences (.value .boolean) operand
    | .call _ none method args =>
      scope.itemOccurrences (Signature.argumentType (scope.callee? none method)) args
    | .call _ (some receiver) method args =>
      scope.occurrences .receiver receiver ++
        scope.itemOccurrences (Signature.argumentType (scope.callee? (some receiver) method)) args
    | .newArray _ size => scope.occurrences (.value .int) size
    | .index _ array position =>
      scope.occurrences (.value .intArray) array ++ scope.occurrences (.value .int) position
    | .length _ array => scope.occurrences (.value .intArray) array
    | .arrayLiteral _ elements => scope.itemOccurrences (fun _ => .int) elements
    | .paren _ inner => scope.occurrences role inner
termination_by structural expr

/-- The occurrences in expressions side by side, each asked for at the type for its position. -/
def itemOccurrences (scope : Scope) (expected : Nat → Ty) (items : List Expr) : List Occurrence :=
  match items with
  | [] => []
  | item :: rest =>
    scope.occurrences (.value (expected 0)) item ++
      scope.itemOccurrences (fun position => expected (position + 1)) rest
termination_by structural items

end

/-- The type that is asked of what is assigned: that of the variable, or of an element. -/
def storedType (scope : Scope) (target : Expr) : Ty :=
  match target.stripped with
  | .name _ name => ((scope.lookup? name).map Variable.ty).getD .unknown
  | .index _ _ _ => .int
  | _ => .unknown

mutual

/-- The occurrences in a statement. -/
def stmtOccurrences (scope : Scope) (stmt : Stmt) : List Occurrence :=
  match stmt with
  | .block _ body => scope.bodyOccurrences body
  | .ifElse _ condition thenBranch none =>
    scope.occurrences (.value .boolean) condition ++ scope.stmtOccurrences thenBranch
  | .ifElse _ condition thenBranch (some elseBranch) =>
    scope.occurrences (.value .boolean) condition ++ scope.stmtOccurrences thenBranch ++
      scope.stmtOccurrences elseBranch
  | .whileLoop _ condition body =>
    scope.occurrences (.value .boolean) condition ++ scope.stmtOccurrences body
  | .eval _ expr => scope.occurrences .statement expr
  | .assign _ target value =>
    scope.occurrences .target target ++ scope.occurrences (.value (scope.storedType target)) value
  | .ret _ none => []
  | .ret _ (some value) => scope.occurrences (.value scope.method.returnType) value
termination_by structural stmt

/-- The occurrences in statements one after the other. -/
def bodyOccurrences (scope : Scope) (body : List Stmt) : List Occurrence :=
  match body with
  | [] => []
  | stmt :: rest => scope.stmtOccurrences stmt ++ scope.bodyOccurrences rest
termination_by structural body

end

/-! ### What is permitted -/

/-- A name stands for a variable. A receiver may also name a known class. -/
def resolves (scope : Scope) : Occurrence → Bool
  | ⟨.name _ name, .receiver⟩ => (scope.lookup? name).isSome || scope.table.isKnownClass name
  | ⟨.name _ name, _⟩ => (scope.lookup? name).isSome
  | _ => true

/-- The type of what a call yields: that of the method of the class that it binds to, if there is
one, and else what is asked for. -/
def yieldedType (scope : Scope) (receiver : Option Expr) (method : String) (expected : Ty) : Ty :=
  ((scope.callee? receiver method).map Signature.returnType).getD expected

/-- A call that does not stand as a statement yields something of a known type. -/
def yields (scope : Scope) : Occurrence → Bool
  | ⟨.call _ _ _ _, .statement⟩ => true
  | ⟨.call _ receiver method _, role⟩ =>
    let ty := scope.yieldedType receiver method role.expected
    !(ty.isVoid || ty.isUnknown)
  | _ => true

/-- Whether a call reaches its method: an instance method needs a receiver, and a static method has
none to pass on. -/
def reaches (scope : Scope) (receiver : Option Expr) (method : String) : Bool :=
  receiver.isSome || !scope.method.isStatic ||
    (scope.table.method? method).all fun callee => callee.isStatic

/-- A call without a receiver does not ask a static method for an instance method. -/
def asks (scope : Scope) : Occurrence → Bool
  | ⟨.call _ receiver method _, _⟩ => scope.reaches receiver method
  | _ => true

/-- What is assigned to is, inside its parentheses, a name or an element. -/
def takes : Occurrence → Bool
  | ⟨.name _ _, .target⟩ | ⟨.index _ _ _, .target⟩ | ⟨.paren _ _, .target⟩ => true
  | ⟨_, .target⟩ => false
  | _ => true

/-- Whether lowering can deal with an occurrence. -/
def permits (scope : Scope) (occurrence : Occurrence) : Bool :=
  scope.resolves occurrence && scope.asks occurrence && scope.yields occurrence && takes occurrence

/-- All occurrences in an expression are permitted. -/
def Permitted (scope : Scope) (role : Role) (expr : Expr) : Prop :=
  ∀ occurrence ∈ scope.occurrences role expr, scope.permits occurrence = true

variable {scope : Scope} {role : Role}

/-- The occurrences in an expression in parentheses are permitted if those inside are. -/
theorem permitted_paren {pos : Pos} {inner : Expr} :
    scope.Permitted role (.paren pos inner) ↔ scope.Permitted role inner := by
  refine List.forall_mem_cons.trans (and_iff_right ?_)
  cases role <;> rfl

theorem permitted_stripped {expr : Expr} :
    scope.Permitted role expr.stripped ↔ scope.Permitted role expr := by
  induction expr with
  | paren pos inner inductionHypothesis =>
    rw [Expr.stripped_paren, inductionHypothesis, permitted_paren]
  | _ => rfl

/-- The role matters only to the expression itself. -/
theorem permitted_congr {other : Role} {expr : Expr}
    (same : scope.permits ⟨expr.stripped, role⟩ = scope.permits ⟨expr.stripped, other⟩) :
    scope.Permitted role expr ↔ scope.Permitted other expr := by
  induction expr with
  | paren pos inner inductionHypothesis =>
    rw [permitted_paren, permitted_paren]
    exact inductionHypothesis same
  | call pos receiver method args =>
    cases receiver <;> simp only [Permitted, occurrences, List.forall_mem_cons] <;>
      exact and_congr_left' (iff_of_eq (congrArg (· = true) same))
  | _ =>
    simp only [Permitted, occurrences, List.forall_mem_cons]
    exact and_congr_left' (iff_of_eq (congrArg (· = true) same))

/-- What holds of every item holds at every position. -/
theorem forall_getElem? {items : List Expr} {each : Expr → Prop} :
    (∀ (position : Nat) item, items[position]? = some item → each item) ↔
      ∀ item ∈ items, each item := by
  constructor
  · intro all item member
    obtain ⟨position, found⟩ := List.mem_iff_getElem?.mp member
    exact all position item found
  · exact fun all _ item found => all item (List.mem_of_getElem? found)

/-- Expressions side by side are permitted if each is, asked for at the type for its position. -/
theorem permitted_items {expected : Nat → Ty} {items : List Expr} :
    (∀ occurrence ∈ scope.itemOccurrences expected items, scope.permits occurrence = true) ↔
      ∀ position item, items[position]? = some item →
        scope.Permitted (.value (expected position)) item := by
  induction items generalizing expected with
  | nil => exact iff_of_true nofun (fun _ _ found => by cases found)
  | cons first rest inductionHypothesis =>
    rw [itemOccurrences, List.forall_mem_append, inductionHypothesis]
    constructor
    · rintro ⟨atFirst, atRest⟩ position item found
      cases position with
      | zero =>
        obtain rfl := Option.some.inj found
        exact atFirst
      | succ position => exact atRest position item found
    · intro all
      exact ⟨all 0 first rfl, fun position item found => all (position + 1) item found⟩

/-- Operands are asked for at the type that the operator works on. -/
theorem permitted_binary {pos : Pos} {op : BinaryOp} {left right : Expr} {expected : Ty} :
    scope.Permitted (.value expected) (.binary pos op left right) ↔
      scope.Permitted (.value (Check.operandType op)) left ∧
        scope.Permitted (.value (Check.operandType op)) right := by
  exact List.forall_mem_cons.trans ((and_iff_right rfl).trans List.forall_mem_append)

theorem permitted_not {pos : Pos} {operand : Expr} {expected : Ty} :
    scope.Permitted (.value expected) (.not pos operand) ↔
      scope.Permitted (.value .boolean) operand := by
  exact List.forall_mem_cons.trans (and_iff_right rfl)

theorem permitted_newArray {pos : Pos} {size : Expr} {expected : Ty} :
    scope.Permitted (.value expected) (.newArray pos size) ↔
      scope.Permitted (.value .int) size := by
  exact List.forall_mem_cons.trans (and_iff_right rfl)

/-- An element may be in any role, also that of what is assigned to. -/
theorem permitted_index {pos : Pos} {array position : Expr} :
    scope.Permitted role (.index pos array position) ↔
      scope.Permitted (.value .intArray) array ∧ scope.Permitted (.value .int) position := by
  refine List.forall_mem_cons.trans ((and_iff_right ?_).trans List.forall_mem_append)
  cases role <;> rfl

theorem permitted_length {pos : Pos} {array : Expr} {expected : Ty} :
    scope.Permitted (.value expected) (.length pos array) ↔
      scope.Permitted (.value .intArray) array := by
  exact List.forall_mem_cons.trans (and_iff_right rfl)

theorem permitted_arrayLiteral {pos : Pos} {elements : List Expr} {expected : Ty} :
    scope.Permitted (.value expected) (.arrayLiteral pos elements) ↔
      ∀ element ∈ elements, scope.Permitted (.value .int) element := by
  rw [← forall_getElem?]
  exact List.forall_mem_cons.trans ((and_iff_right rfl).trans permitted_items)

theorem permitted_call {pos : Pos} {receiver : Option Expr} {method : String} {args : List Expr} :
    scope.Permitted role (.call pos receiver method args) ↔
      scope.permits ⟨.call pos receiver method args, role⟩ = true ∧
      (∀ expr, receiver = some expr → scope.Permitted .receiver expr) ∧
      ∀ position arg, args[position]? = some arg →
        scope.Permitted (.value (Signature.argumentType (scope.callee? receiver method) position))
          arg := by
  cases receiver with
  | none =>
    refine List.forall_mem_cons.trans (and_congr_right fun _ => permitted_items.trans ?_)
    simp
  | some receiver =>
    refine List.forall_mem_cons.trans (and_congr_right fun _ => List.forall_mem_append.trans ?_)
    rw [permitted_items]
    simp only [Option.some.injEq, forall_eq']
    rfl

/-- The value of a call is permitted if the call reaches its method and yields something, and its
parts are permitted. -/
theorem permitted_callValue {pos : Pos} {receiver : Option Expr} {method : String}
    {args : List Expr} {expected : Ty} :
    scope.Permitted (.value expected) (.call pos receiver method args) ↔
      ((scope.reaches receiver method = true ∧
        ∀ expr, receiver = some expr → scope.Permitted .receiver expr) ∧
      ∀ position arg, args[position]? = some arg →
        scope.Permitted (.value (Signature.argumentType (scope.callee? receiver method) position))
          arg) ∧
      ((scope.yieldedType receiver method expected).isVoid ||
        (scope.yieldedType receiver method expected).isUnknown) = false := by
  have itself : scope.permits ⟨.call pos receiver method args, .value expected⟩ = true ↔
      scope.reaches receiver method = true ∧
        ((scope.yieldedType receiver method expected).isVoid ||
          (scope.yieldedType receiver method expected).isUnknown) = false := by
    simp [permits, resolves, asks, yields, takes, Role.expected]
  rw [permitted_call, itself]
  tauto

end Scope

/-! ### Expressions -/

namespace Emission

open Lower

variable {scope : Scope} {holds others : Ty → Prop}

/-- An operator asks both operands for its own type. -/
theorem decides_binary {left right : Emission} (op : BinaryOp) (first : left.Decides holds)
    (second : right.Decides others) :
    (binary scope op left right).Decides fun _ =>
      holds (Check.operandType op) ∧ others (Check.operandType op) := by
  cases op with
  | arith op =>
    exact decides_ofValue fun _ => (first.value .int).bind fun _ _ _ =>
      (second.value .int).followed fun _ => decides_store _ _ _
  | less =>
    exact decides_ofJump fun _ _ => (first.value .int).bind fun _ _ _ =>
      (second.value .int).followed fun _ => (decides_emit _).after fun _ => decides_emit _
  | and | or =>
    exact decides_ofJump fun _ _ => decides_labelId.after fun _ =>
      (first.jump _ _).bind fun _ _ _ => (decides_emit _).after fun _ => second.jump _ _

end Emission

namespace Scope

open Lower Emission

variable {scope : Scope}

/-- Lowering an expression succeeds exactly if what occurs in it is permitted. -/
def Follows (scope : Scope) (expr : Expr) : Prop :=
  (scope.emission expr).Decides fun expected => scope.Permitted (.value expected) expr

/-- Storing items into an array succeeds if each can be computed. -/
theorem fill_follows {items : List Expr} (follows : ∀ item ∈ items, scope.Follows item)
    (array : Operand) (element : Ty) (position : Nat) :
    (fill array element position (items.map scope.emission)).Decides
      (∀ item ∈ items, scope.Permitted (.value element) item) := by
  induction items generalizing position with
  | nil => exact (decides_pure ()).congr (iff_of_true trivial nofun)
  | cons item rest inductionHypothesis =>
    obtain ⟨first, others⟩ := List.forall_mem_cons.mp follows
    rw [List.forall_mem_cons]
    exact (first.value element).bind fun _ _ _ => (decides_emit _).after fun _ =>
      inductionHypothesis others (position + 1)

theorem pack_follows {items : List Expr} (follows : ∀ item ∈ items, scope.Follows item)
    (element : Ty) :
    (pack scope element (items.map scope.emission)).Decides
      (∀ item ∈ items, scope.Permitted (.value element) item) :=
  (decides_store _ _ _).after fun array =>
    (fill_follows follows array element 0).followed fun _ => decides_pure _

/-- Values are lowered if each is permitted at the type it is asked for. -/
theorem values_follow {items : List (Expr × Ty)} (follows : ∀ item ∈ items, scope.Follows item.1) :
    (items.mapM fun item => scope.lowerValue item.1 item.2).Decides
      (∀ item ∈ items, scope.Permitted (.value item.2) item.1) :=
  decides_mapM fun item member => (follows item member).value item.2

/-- What is asked for does not matter to an expression that has a type of its own. -/
theorem permitted_of_typed {expr : Expr} (typed : scope.typeOf expr ≠ .unknown)
    (first second : Ty) :
    scope.Permitted (.value first) expr ↔ scope.Permitted (.value second) expr := by
  refine permitted_congr ?_
  rw [← typeOf_stripped] at typed
  cases shape : expr.stripped with
  | call pos receiver method args =>
    rw [shape] at typed
    obtain ⟨callee, bound, -⟩ := callee?_of_known typed
    simp [permits, resolves, asks, yields, takes, yieldedType, bound]
  | _ => rfl

/-- Arguments without a parameter are asked for at their own type, which comes to the same as
asking for integers. -/
theorem bare_follow {args : List Expr} (follows : ∀ arg ∈ args, scope.Follows arg) :
    ((scope.arguments args).mapM Argument.bare).Decides
      (∀ arg ∈ args, scope.Permitted (.value .int) arg) := by
  rw [mapM_bare]
  refine (values_follow fun item member => follows item.1 (mem_of_mem_bareItems member)).congr ?_
  rw [List.forall_mem_map]
  refine forall₂_congr fun arg _ => ?_
  by_cases unknown : (scope.typeOf arg).isUnknown = true
  · rw [bareItem, if_pos unknown]
  · have typed : scope.typeOf arg ≠ .unknown := by
      intro same
      rw [same] at unknown
      exact unknown rfl
    exact permitted_of_typed typed _ _

/-- Trailing arguments are asked for at the type of the elements they are packed into. A single one
that is passed on has the type of the array, so it does not matter what is asked of it. -/
theorem rest_follows {trailing : List Expr} (follows : ∀ arg ∈ trailing, scope.Follows arg)
    {param : Binding} (isArray : param.ty.isArray = true) :
    (restOperand scope param (scope.arguments trailing)).Decides
      (∀ arg ∈ trailing, scope.Permitted (.value (param.ty.element?.getD .int)) arg) := by
  unfold restOperand
  rw [map_emission_arguments]
  have packed := pack_follows follows (param.ty.element?.getD .int)
  match trailing with
  | [] => exact packed
  | [arg] =>
    simp only [arguments]
    split
    · next same =>
      rw [List.forall_mem_singleton]
      refine ((List.forall_mem_singleton.mp follows).value param.ty).congr
        (permitted_of_typed (fun unknown => ?_) _ _)
      rw [← same, unknown] at isArray
      cases isArray
    · exact packed
  | _ :: _ :: _ => exact packed

/-- The fixed arguments are asked for at the types for their positions. -/
theorem permitted_fixedItems {callee : Signature} {args : List Expr} :
    (∀ item ∈ fixedItems callee args, scope.Permitted (.value item.2) item.1) ↔
      ∀ position arg, position < callee.fixedArity → args[position]? = some arg →
        scope.Permitted (.value (Signature.argumentType (some callee) position)) arg := by
  have few : callee.fixedArity ≤ callee.params.length := by
    rw [Signature.fixedArity]
    split <;> omega
  have atParam {position : Nat} {param : Binding} (fixed : position < callee.fixedArity)
      (found : callee.params[position]? = some param) :
      Signature.argumentType (some callee) position = param.ty := by
    rw [Signature.argumentType, if_pos fixed, found]
    rfl
  rw [fixedItems, List.forall_mem_map]
  constructor
  · intro all position arg fixed found
    have param := List.getElem?_eq_getElem (Nat.lt_of_lt_of_le fixed few)
    rw [atParam fixed param]
    refine all (arg, _) (List.mem_of_getElem? (List.getElem?_zip_eq_some.mpr ⟨found, ?_⟩))
    rw [List.getElem?_take, if_pos fixed, param]
  · rintro all ⟨arg, param⟩ zipped
    obtain ⟨position, both⟩ := List.mem_iff_getElem?.mp zipped
    obtain ⟨found, taken⟩ := List.getElem?_zip_eq_some.mp both
    rw [List.getElem?_take] at taken
    split at taken
    · next fixed =>
      have permitted := all position arg fixed found
      rwa [atParam fixed taken] at permitted
    · cases taken

/-- Behind the fixed arguments every position asks for the same type. -/
theorem permitted_positions {callee : Signature} {args : List Expr} :
    (∀ position arg, args[position]? = some arg →
        scope.Permitted (.value (Signature.argumentType (some callee) position)) arg) ↔
      (∀ item ∈ fixedItems callee args, scope.Permitted (.value item.2) item.1) ∧
      ∀ arg ∈ args.drop callee.fixedArity,
        scope.Permitted (.value (callee.restElement?.getD .int)) arg := by
  have behind {position : Nat} (trailing : ¬position < callee.fixedArity) :
      Signature.argumentType (some callee) position = callee.restElement?.getD .int := by
    rw [Signature.argumentType, if_neg trailing]
  rw [permitted_fixedItems, ← forall_getElem?]
  constructor
  · intro all
    refine ⟨fun position arg _ found => all position arg found, fun position arg found => ?_⟩
    rw [List.getElem?_drop] at found
    rw [← behind (Nat.not_lt.mpr (Nat.le_add_right callee.fixedArity position))]
    exact all _ arg found
  · rintro ⟨fixed, trailing⟩ position arg found
    by_cases isFixed : position < callee.fixedArity
    · exact fixed position arg isFixed found
    · rw [behind isFixed]
      refine trailing (position - callee.fixedArity) arg ?_
      rw [List.getElem?_drop, Nat.add_sub_cancel' (Nat.not_lt.mp isFixed), found]

/-- The arguments of a call succeed if each is permitted at the type for its position. -/
theorem operands_follow {args : List Expr} (follows : ∀ arg ∈ args, scope.Follows arg)
    {callee : Option Signature}
    (rests : ∀ signature param, callee = some signature → signature.restParam? = some param →
      param.ty.isArray = true) :
    (operands scope callee (scope.arguments args)).Decides
      (∀ position arg, args[position]? = some arg →
        scope.Permitted (.value (Signature.argumentType callee position)) arg) := by
  cases callee with
  | none => exact (bare_follow follows).congr forall_getElem?.symm
  | some signature =>
    have trailingFollow : ∀ arg ∈ args.drop signature.fixedArity, scope.Follows arg :=
      fun arg member => follows arg (List.mem_of_mem_drop member)
    rw [permitted_positions, operands, mapM_fixed, drop_arguments, Signature.restElement?]
    refine (values_follow fun item member => ?_).bind fun _ fixed _ => ?_
    · exact follows item.1 (mem_of_mem_fixedItems member)
    · cases rest : signature.restParam? with
      | some param =>
        exact (rest_follows trailingFollow (rests signature param rfl rest)).followed fun _ =>
          decides_pure _
      | none => exact (bare_follow trailingFollow).followed fun _ => decides_pure _

/-- A call without a receiver finds what it is made on, unless it asks a static method for an
instance method. -/
theorem implicitTarget_follows (method : String) :
    (implicitTarget scope method).Decides (scope.reaches none method = true) := by
  rw [implicitTarget, reaches]
  split
  · next callee found =>
    split
    · next isStatic =>
      exact (decides_pure _).congr (iff_of_true trivial (by simp [found, isStatic]))
    · next isInstance =>
      split
      · next inStatic =>
        exact (decides_fail _).congr (iff_of_false id (by simp [found, isInstance, inStatic]))
      · next inInstance =>
        exact (decides_pure _).congr (iff_of_true trivial (by simp [inInstance]))
  · next absent =>
    split <;> exact (decides_pure _).congr (iff_of_true trivial (by simp [absent]))

/-- A receiver is computed unless it is `this` or names a class. -/
theorem explicitTarget_follows {receiver : Expr} (follows : scope.Follows receiver) :
    (explicitTarget scope receiver (scope.emission receiver)).Decides
      (scope.Permitted .receiver receiver) := by
  have computed (same : scope.permits ⟨receiver.stripped, .value .unknown⟩ =
      scope.permits ⟨receiver.stripped, .receiver⟩) :
      (onValue (scope.emission receiver)).Decides (scope.Permitted .receiver receiver) :=
    ((follows.value .unknown).followed fun _ => decides_pure _).congr (permitted_congr same)
  rw [explicitTarget]
  split
  · next pos isThis =>
    refine (decides_pure _).congr (iff_of_true trivial ?_)
    rw [← permitted_stripped, isThis, Permitted, occurrences]
    exact List.forall_mem_singleton.mpr rfl
  · next pos className named =>
    split
    · next isClass =>
      refine (decides_pure _).congr (iff_of_true trivial ?_)
      rw [← permitted_stripped, named, Permitted, occurrences]
      rw [Bool.and_eq_true] at isClass
      refine List.forall_mem_singleton.mpr ?_
      simp [permits, resolves, asks, yields, takes, isClass.2]
    · next notClass =>
      refine computed ?_
      rw [named]
      cases found : scope.lookup? className with
      | some _ => simp [permits, resolves, asks, yields, takes, found]
      | none =>
        rw [found, Option.isNone_none, Bool.true_and, Bool.not_eq_true] at notClass
        simp [permits, resolves, asks, yields, takes, found, notClass]
  · next notThis notName =>
    refine computed ?_
    cases shape : receiver.stripped with
    | name pos text => exact absurd shape (notName pos text)
    | _ => rfl

/-- A call succeeds up to the instruction itself if it asks for what it can reach and what occurs in
its receiver and its arguments is permitted. -/
theorem invocation_follows {receiver : Option Expr} {method : String} {args : List Expr}
    (receiverFollows : ∀ expr, receiver = some expr → scope.Follows expr)
    (argsFollow : ∀ arg ∈ args, scope.Follows arg)
    (rests : ∀ signature param, scope.callee? receiver method = some signature →
      signature.restParam? = some param → param.ty.isArray = true) (expected : Ty) :
    (scope.invocation receiver method args expected).Decides
      ((scope.reaches receiver method = true ∧
        ∀ expr, receiver = some expr → scope.Permitted .receiver expr) ∧
      ∀ position arg, args[position]? = some arg →
        scope.Permitted (.value (Signature.argumentType (scope.callee? receiver method) position))
          arg) := by
  refine Decides.bind ?_ fun _ _ _ => (operands_follow argsFollow rests).followed fun _ =>
    decides_pure _
  cases receiver with
  | none => exact (implicitTarget_follows method).congr (by simp)
  | some expr => exact (explicitTarget_follows (receiverFollows expr rfl)).congr (by simp [reaches])

/-- The result of a call is that of its method, or what is asked for. -/
theorem yieldedType_of_invocation {receiver : Option Expr} {method : String} {args : List Expr}
    {expected : Ty} {counters : Counters} {call : Call}
    (ok : (scope.invocation receiver method args expected counters).outcome = .ok call) :
    call.returnType = scope.yieldedType receiver method expected := by
  simp only [invocation, invoke, bind_outcome_eq_ok_iff] at ok
  obtain ⟨_, _, _, _, same⟩ := ok
  obtain rfl := Except.ok.inj same
  rfl

/-- Parameters that take all trailing arguments are arrays. -/
def PacksArrays (table : ClassTable) : Prop :=
  ∀ method callee param, table.method? method = some callee → callee.restParam? = some param →
    param.ty.isArray = true

/-- Lowering an expression succeeds exactly if what occurs in it is permitted. -/
theorem follows (packs : PacksArrays scope.table) (expr : Expr) : scope.Follows expr := by
  rw [Follows]
  induction expr with
  | literal pos value =>
    rw [emission]
    refine (Emission.decides_literal value).congr fun _ => iff_of_true trivial ?_
    exact List.forall_mem_singleton.mpr rfl
  | name pos text =>
    rw [emission]
    refine (Emission.decides_name pos text).congr fun _ => ?_
    rw [Permitted, occurrences, List.forall_mem_singleton]
    simp [permits, resolves, asks, yields, takes]
  | this pos =>
    rw [emission]
    refine (Emission.decides_ofValue fun _ => decides_pure _).congr fun _ => iff_of_true trivial ?_
    exact List.forall_mem_singleton.mpr rfl
  | newObject pos className =>
    rw [emission]
    refine (Emission.decides_newObject className).congr fun _ => iff_of_true trivial ?_
    exact List.forall_mem_singleton.mpr rfl
  | binary pos op left right leftFollows rightFollows =>
    rw [emission]
    exact (Emission.decides_binary op leftFollows rightFollows).congr fun _ => permitted_binary.symm
  | not pos operand operandFollows =>
    rw [emission]
    exact (Emission.decides_ofJump fun _ _ => operandFollows.jump _ _).congr fun _ =>
      permitted_not.symm
  | call pos receiver method args receiverFollows argsFollow =>
    rw [emission_call]
    refine Emission.decides_ofValue fun expected => ?_
    refine ((invocation_follows receiverFollows argsFollow
      (fun signature param bound => packs method signature param (method?_of_callee? bound))
      expected).bind fun counters call ok => ?_).congr permitted_callValue.symm
    rw [← yieldedType_of_invocation ok]
    split
    · next nothing => exact (decides_fail _).congr (iff_of_false id (by simp [nothing]))
    · next something =>
      exact (decides_store _ _ _).congr (iff_of_true trivial (Bool.eq_false_iff.mpr something))
  | newArray pos size sizeFollows =>
    rw [emission]
    exact (Emission.decides_ofValue fun _ => (sizeFollows.value .int).followed fun _ =>
      decides_store _ _ _).congr fun _ => permitted_newArray.symm
  | index pos array position arrayFollows positionFollows =>
    rw [emission]
    exact (Emission.decides_ofValue fun _ => (arrayFollows.value .intArray).bind fun _ _ _ =>
      (positionFollows.value .int).followed fun _ => decides_store _ _ _).congr fun _ =>
        permitted_index.symm
  | length pos array arrayFollows =>
    rw [emission]
    exact (Emission.decides_ofValue fun _ => (arrayFollows.value .intArray).followed fun _ =>
      decides_store _ _ _).congr fun _ => permitted_length.symm
  | arrayLiteral pos elements elementsFollow =>
    rw [emission, map_emission_arguments]
    exact (Emission.decides_ofValue fun _ => pack_follows elementsFollow .int).congr fun _ =>
      permitted_arrayLiteral.symm
  | paren pos inner innerFollows =>
    rw [emission]
    exact ⟨fun expected => (innerFollows.value expected).congr permitted_paren.symm,
      fun onTrue onFalse => (innerFollows.jump onTrue onFalse).congr permitted_paren.symm⟩

/-! ### Statements -/

/-- An expression that stands as a statement. A call is not asked for a value. -/
theorem eval_follows (packs : PacksArrays scope.table) (expr : Expr) :
    (scope.lowerEval expr).Decides (scope.Permitted .statement expr) := by
  rw [lowerEval]
  split
  · next pos receiver method args isCall =>
    rw [← permitted_stripped, isCall]
    refine ((invocation_follows (fun receiver _ => follows packs receiver)
      (fun arg _ => follows packs arg)
      (fun signature param bound => packs method signature param (method?_of_callee? bound))
      .void).followed fun _ => ?_).congr ?_
    · split <;> exact decides_emit _
    · rw [permitted_call, and_assoc]
      refine and_congr_left' ?_
      simp [permits, resolves, asks, yields, takes]
  · next notCall =>
    rw [lowerValue, emission_stripped]
    refine (((follows packs expr).value .unknown).followed fun _ => decides_pure _).congr
      (permitted_congr ?_)
    cases shape : expr.stripped with
    | call pos receiver method args => exact absurd shape (notCall pos receiver method args)
    | _ => rfl

/-- An assignment goes to a name or to an element, and its value is asked for at the type stored
there. -/
theorem assign_follows (packs : PacksArrays scope.table) (target value : Expr) :
    (scope.lowerAssign target value).Decides
      (scope.Permitted .target target ∧
        scope.Permitted (.value (scope.storedType target)) value) := by
  have valueFollows := follows packs value
  rw [lowerAssign, ← permitted_stripped]
  split
  · next pos name named =>
    have resolves : scope.Permitted .target (.name pos name) ↔
        (scope.lookup? name).isSome = true := by
      rw [Permitted, occurrences, List.forall_mem_singleton]
      simp [permits, Scope.resolves, asks, yields, takes]
    have stored {found : Variable} (resolved : scope.lookup? name = some found) :
        scope.storedType target = found.ty := by
      simp only [storedType, named, resolved, Option.map_some, Option.getD_some]
    rw [named, resolves]
    split
    · next found =>
      rw [stored found, found]
      exact ((valueFollows.value _).followed fun _ => decides_emit _).congr
        (and_iff_right rfl).symm
    · next found _ resolved =>
      rw [stored resolved, resolved]
      exact ((valueFollows.value _).followed fun _ => decides_emit _).congr
        (and_iff_right rfl).symm
    · next absent =>
      rw [absent]
      exact (decides_fail _).congr (iff_of_false id (by simp))
  · next pos array position indexed =>
    have stored : scope.storedType target = .int := by simp only [storedType, indexed]
    rw [stored, indexed, permitted_index, and_assoc]
    exact ((follows packs array).value .intArray).bind fun _ _ _ =>
      ((follows packs position).value .int).bind fun _ _ _ =>
        (valueFollows.value .int).followed fun _ => decides_emit _
  · next notName notIndex =>
    refine (decides_fail _).congr (iff_of_false id fun permitted => ?_)
    have itself := permitted.1 ⟨target.stripped, .target⟩ (by rw [occurrences.eq_def]; simp)
    cases shape : target.stripped with
    | name pos name => exact notName pos name shape
    | index pos array position => exact notIndex pos array position shape
    | paren pos inner => exact target.stripped_ne_paren pos inner shape
    | _ => simp [shape, permits, takes] at itself

/-- All occurrences in a statement are permitted. -/
def PermittedStmt (scope : Scope) (stmt : Stmt) : Prop :=
  ∀ occurrence ∈ scope.stmtOccurrences stmt, scope.permits occurrence = true

theorem body_follows_of {body : List Stmt}
    (follow : ∀ stmt ∈ body, (scope.lowerStmt stmt).Decides (scope.PermittedStmt stmt)) :
    (scope.lowerBody body).Decides
      (∀ occurrence ∈ scope.bodyOccurrences body, scope.permits occurrence = true) := by
  induction body with
  | nil =>
    rw [lowerBody, bodyOccurrences]
    exact (decides_pure ()).congr (iff_of_true trivial (List.forall_mem_nil _))
  | cons stmt rest inductionHypothesis =>
    obtain ⟨first, others⟩ := List.forall_mem_cons.mp follow
    rw [lowerBody, bodyOccurrences, List.forall_mem_append]
    exact first.bind fun _ _ _ => inductionHypothesis others

theorem stmt_follows (packs : PacksArrays scope.table) (stmt : Stmt) :
    (scope.lowerStmt stmt).Decides (scope.PermittedStmt stmt) := by
  induction stmt with
  | block pos body inductionHypothesis =>
    rw [lowerStmt, PermittedStmt, stmtOccurrences]
    exact body_follows_of inductionHypothesis
  | ifElse pos condition thenBranch elseBranch thenHypothesis elseHypothesis =>
    have jumps := (follows packs condition).jump
    rw [lowerStmt, PermittedStmt]
    cases elseBranch with
    | none =>
      rw [stmtOccurrences, List.forall_mem_append]
      refine decides_labelId.after fun _ => (jumps _ _).bind fun _ _ _ => ?_
      refine (decides_emit _).after fun _ => (thenHypothesis.joining _).followed fun _ => ?_
      exact (decides_emit _).after fun _ => decides_emit _
    | some other =>
      rw [stmtOccurrences, List.forall_mem_append, List.forall_mem_append, and_assoc]
      refine decides_labelId.after fun _ => (jumps _ _).bind fun _ _ _ => ?_
      refine (decides_emit _).after fun _ => (thenHypothesis.joining _).bind fun _ _ _ => ?_
      exact (decides_emit _).after fun _ => (elseHypothesis other rfl).followed fun _ =>
        decides_emit _
  | whileLoop pos condition body inductionHypothesis =>
    have jumps := (follows packs condition).jump
    rw [lowerStmt, PermittedStmt, stmtOccurrences, List.forall_mem_append]
    refine decides_labelId.after fun _ => (decides_emit _).after fun _ => ?_
    refine (jumps _ _).bind fun _ _ _ => (decides_emit _).after fun _ => ?_
    exact inductionHypothesis.followed fun _ => (decides_emit _).after fun _ => decides_emit _
  | eval pos expr =>
    rw [lowerStmt, PermittedStmt, stmtOccurrences]
    exact eval_follows packs expr
  | assign pos target value =>
    rw [lowerStmt, PermittedStmt, stmtOccurrences, List.forall_mem_append]
    exact assign_follows packs target value
  | ret pos value =>
    rw [lowerStmt, PermittedStmt]
    cases value with
    | none =>
      rw [stmtOccurrences]
      exact (decides_emit _).congr (iff_of_true trivial (List.forall_mem_nil _))
    | some expr =>
      rw [stmtOccurrences]
      exact ((follows packs expr).value scope.method.returnType).followed fun _ => decides_emit _

/-- Lowering a body succeeds exactly if what occurs in it is permitted. -/
theorem body_follows (packs : PacksArrays scope.table) (body : List Stmt) :
    (scope.lowerBody body).Decides
      (∀ occurrence ∈ scope.bodyOccurrences body, scope.permits occurrence = true) :=
  body_follows_of fun stmt _ => stmt_follows packs stmt

end Scope

/-! ### Programs -/

namespace ClassTable

theorem packsArrays_ofProgram (program : Program) : Scope.PacksArrays (ofProgram program) :=
  fun _ _ _ declared rest => isArray_of_restParam? declared rest

/-- A program is lowered exactly if every occurrence of an expression in its methods is permitted:
names stand for variables, or for known classes where they are receivers; calls without a receiver
in static methods do not ask for instance methods; calls that do not stand as statements yield
something, by their methods or by what their places ask for; and what is assigned to is a name or
an element. -/
theorem lower_succeeds_iff (program : Program) (counters : Counters) :
    (∃ code, ((ofProgram program).lower program counters).1 = .ok code) ↔
      ∀ decl ∈ program.classDecl.methods,
        ∀ occurrence ∈ Scope.bodyOccurrences ⟨ofProgram program, .ofDecl decl⟩ decl.body,
          Scope.permits ⟨ofProgram program, .ofDecl decl⟩ occurrence = true :=
  lower_succeeds_of_decides
    (fun decl _ => Scope.body_follows (packsArrays_ofProgram program) decl.body) counters

end ClassTable

end JavaMinus
