/-
This file says when the descriptor of a call fits the call. Lowering decides by
the static type of the receiver whether a call binds to a method of the class;
assembly decides again, by the base name of the operand that the call is made on.
The two decisions agree unless the receiver is an array of the class: lowering
binds no method to it, but its base name is that of the class, so assembly takes
the descriptor from the declaration of a method that the call was not made for.

So where the checks report no error, a descriptor has a parameter for each
argument and a result exactly if the call has one, except that a call on an array
of the class must happen to agree with the method of that name, if there is one.
-/

import JavaMinus.Jasmin.Assembler
import JavaMinus.Proofs.Check.Types
import JavaMinus.Proofs.Jasmin.Heights
import JavaMinus.Proofs.Jasmin.Totality
import JavaMinus.Proofs.Lowering.Invocations

namespace JavaMinus

open Observer

/-! ### What calls are made on -/

namespace Scope

/-- The method of the class that a call on an array of the class is taken for. -/
def mistaken? (scope : Scope) (invocation : Invocation) : Option Signature :=
  match invocation.receiver with
  | none => none
  | some receiver =>
    if scope.typeOf receiver = .arrayOf scope.table.className then
      scope.table.method? invocation.method
    else none

/-- How a call of the code goes with the one that it was made from. -/
structure Addresses (scope : Scope) (invocation : Invocation) (call : Call) : Prop where
  method : call.method = invocation.method
  /-- It belongs to the class if it binds to a method of the class or is mistaken for one. -/
  owner : ∀ callee, scope.table.method? invocation.method = some callee →
    (call.target.owner scope.table.className = scope.table.className ↔
      scope.callee? invocation.receiver invocation.method = some callee ∨
        scope.mistaken? invocation = some callee)
  bound : ∀ callee, scope.callee? invocation.receiver invocation.method = some callee →
    call.returnType = callee.returnType ∧
      (Check.takes callee invocation.args.length = true → call.args.length = callee.params.length)
  unbound : scope.callee? invocation.receiver invocation.method = none →
    call.args.length = invocation.args.length

variable {scope : Scope}

/-- A receiver other than `this` has the name of the class in its type exactly if it is of the class
or an array of it. -/
theorem base_eq_className_iff {receiver : Expr} {method : String} {args : List Expr}
    {callee : Signature} (isClass : scope.table.classType.isClass = true)
    (declared : scope.table.method? method = some callee) (notThis : receiver.isThis = false) :
    (scope.typeOf receiver).base = scope.table.className ↔
      scope.callee? (some receiver) method = some callee ∨
        scope.mistaken? ⟨some receiver, method, args⟩ = some callee := by
  simp only [callee?, isOwn, notThis, Bool.false_or, mistaken?, declared]
  constructor
  · intro same
    cases isArray : (scope.typeOf receiver).isArray with
    | true =>
      refine .inr (if_pos ?_)
      rw [Ty.arrayOf, ← same, ← isArray]
    | false =>
      refine .inl (if_pos ?_)
      have isType : scope.typeOf receiver = scope.table.classType := by
        rw [ClassTable.classType, Ty.named, ← same, ← isArray]
      rw [isType, isClass]
      exact beq_self_eq_true scope.table.className
  · rintro (own | mistaken)
    · split at own
      · next both => exact beq_iff_eq.mp (Bool.and_eq_true_iff.mp both).2
      · cases own
    · split at mistaken
      · next isType =>
        rw [isType]
        rfl
      · cases mistaken

/-- What a call is made on belongs to the class exactly if the call binds to the method of that
name, or if its receiver is an array of the class. -/
theorem owner_of_target {receiver : Option Expr} {method : String} {args : List Expr}
    {kind : CallKind} {result : CallTarget} {before after : Counters} {code : List Instr}
    (isClass : scope.table.classType.isClass = true)
    (lowers : Lowers scope (.target receiver method kind result) before code after)
    {callee : Signature} (declared : scope.table.method? method = some callee) :
    result.owner scope.table.className = scope.table.className ↔
      scope.callee? receiver method = some callee ∨
        scope.mistaken? ⟨receiver, method, args⟩ = some callee := by
  cases lowers with
  | implicitStatic | implicitThis => exact iff_of_true rfl (.inl declared)
  | onThis isThis =>
    refine iff_of_true rfl (.inl ?_)
    rw [callee?, isOwn, isThis, Bool.true_or, if_pos rfl, declared]
  | @onClass expr _ className _ _ named notVariable known =>
    have notThis : expr.isThis = false := by rw [Expr.isThis, named]
    have isType : scope.typeOf expr = .named className := by
      rw [← typeOf_stripped, named, typeOf, nameType, notVariable]
      exact if_pos known
    rw [← base_eq_className_iff isClass declared notThis, isType]
    rfl
  | onValue notThis _ valueLowers =>
    rw [← base_eq_className_iff isClass declared notThis]
    -- Nothing is asked for of a receiver, so it can only have the type of the expression.
    rcases valueLowers.resultTyped with isType | ⟨-, known, -⟩
    · rw [CallTarget.owner, isType]
    · cases known

/-! ### Arguments -/

theorem length_of_values {items : List (Expr × Ty)} {results : List Operand}
    {before after : Counters} {code : List Instr}
    (lowers : Lowers scope (.values items results) before code after) :
    results.length = items.length := by
  induction items generalizing results before code with
  | nil =>
    cases lowers
    rfl
  | cons item rest inductionHypothesis =>
    cases lowers with
    | moreValues _ restLowers =>
      rw [List.length_cons, List.length_cons, inductionHypothesis restLowers]

theorem length_fixedItems (callee : Signature) (args : List Expr) :
    (fixedItems callee args).length = min callee.fixedArity args.length := by
  rw [← List.length_map Prod.fst, map_fst_fixedItems, List.length_take]

theorem length_boundItems (scope : Scope) (callee : Signature) (args : List Expr) :
    (fixedItems callee args ++ (args.drop callee.fixedArity).map scope.bareItem).length =
      args.length := by
  rw [← List.length_map Prod.fst, map_fst_boundItems]

/-- A method that takes no trailing arguments takes as many as it has parameters. -/
theorem length_of_takes {callee : Signature} {count : Nat}
    (filled : callee.isVarargs = true → callee.params ≠ []) (noRest : callee.restParam? = none)
    (takes : Check.takes callee count = true) : count = callee.params.length := by
  rw [Signature.restParam?] at noRest
  rw [Check.takes, Signature.fixedArity] at takes
  cases isVarargs : callee.isVarargs with
  | true =>
    rw [isVarargs, if_pos rfl, List.getLast?_eq_none_iff] at noRest
    exact absurd noRest (filled isVarargs)
  | false => simpa [isVarargs] using takes

/-- A method that takes trailing arguments has one parameter for them, behind the others. -/
theorem fixedArity_of_takes {callee : Signature} {param : Binding} {count : Nat}
    (rest : callee.restParam? = some param) (takes : Check.takes callee count = true) :
    callee.fixedArity ≤ count ∧ callee.fixedArity + 1 = callee.params.length := by
  rw [Signature.restParam?] at rest
  split at rest
  · next isVarargs =>
    have some : callee.params ≠ [] := by
      rintro none
      rw [none] at rest
      cases rest
    have positive := List.length_pos_iff.mpr some
    rw [Check.takes, if_pos isVarargs, decide_eq_true_eq] at takes
    refine ⟨takes, ?_⟩
    rw [Signature.fixedArity, if_pos isVarargs]
    omega
  · cases rest

/-- A call that binds to a method has an argument for each of its parameters if the method takes
the arguments that are written. -/
theorem Addresses.of_callee {receiver : Option Expr} {method : String} {args : List Expr}
    {call : Call} {callee : Signature} (isCallee : scope.callee? receiver method = some callee)
    (isMethod : call.method = method)
    (owner : ∀ declared, scope.table.method? method = some declared →
      (call.target.owner scope.table.className = scope.table.className ↔
        scope.callee? receiver method = some declared ∨
          scope.mistaken? ⟨receiver, method, args⟩ = some declared))
    (returns : call.returnType = callee.returnType)
    (count : Check.takes callee args.length = true → call.args.length = callee.params.length) :
    scope.Addresses ⟨receiver, method, args⟩ call where
  method := isMethod
  owner := owner
  bound := by
    intro other bound
    obtain rfl := Option.some.inj (isCallee.symm.trans bound)
    exact ⟨returns, count⟩
  unbound noCallee := nomatch isCallee.symm.trans noCallee

/-- A call of the code goes with the one that it was made from. -/
theorem addresses_of_call (isClass : scope.table.classType.isClass = true)
    (filled : ∀ callee ∈ scope.table.methods, callee.isVarargs = true → callee.params ≠ [])
    {receiver : Option Expr} {method : String} {args : List Expr} {expected : Ty} {result : Call}
    {before after : Counters} {code : List Instr}
    (lowers : Lowers scope (.call receiver method args expected result) before code after) :
    scope.Addresses ⟨receiver, method, args⟩ result := by
  cases lowers with
  | unbound noCallee targetLowers argsLowers =>
    refine ⟨rfl, fun _ => owner_of_target isClass targetLowers, fun callee bound => ?_, fun _ => ?_⟩
    · exact nomatch noCallee.symm.trans bound
    · rw [length_of_values argsLowers, List.length_map]
  | bound isCallee noRest targetLowers argsLowers =>
    refine .of_callee isCallee rfl (fun _ => owner_of_target isClass targetLowers) rfl
      fun takes => ?_
    have declared := List.mem_of_find?_eq_some (method?_of_callee? isCallee)
    rw [length_of_values argsLowers, length_boundItems]
    exact length_of_takes (filled _ declared) noRest takes
  | passed isCallee rest _ _ targetLowers argsLowers =>
    refine .of_callee isCallee rfl (fun _ => owner_of_target isClass targetLowers) rfl
      fun takes => ?_
    obtain ⟨enough, count⟩ := fixedArity_of_takes rest takes
    rw [length_of_values argsLowers, List.length_append, length_fixedItems,
      Nat.min_eq_left enough, ← count]
    rfl
  | packed isCallee rest _ targetLowers argsLowers _ =>
    refine .of_callee isCallee rfl (fun _ => owner_of_target isClass targetLowers) rfl
      fun takes => ?_
    obtain ⟨enough, count⟩ := fixedArity_of_takes rest takes
    rw [List.length_append, length_of_values argsLowers, length_fixedItems,
      Nat.min_eq_left enough, ← count]
    rfl

/-- A call that binds to a method is not mistaken for another. -/
theorem mistaken?_of_callee? {invocation : Invocation} {callee : Signature}
    (bound : scope.callee? invocation.receiver invocation.method = some callee) :
    scope.mistaken? invocation = none := by
  rw [mistaken?]
  split
  · rfl
  · next receiver isReceiver =>
    rw [isReceiver, callee?] at bound
    refine if_neg fun isArray => ?_
    split at bound
    · next own =>
      rw [isOwn, isArray, Bool.or_eq_true, Bool.and_eq_true] at own
      rcases own with isThis | ⟨isClass, -⟩
      · obtain ⟨pos, same⟩ := Expr.stripped_of_isThis isThis
        rw [← typeOf_stripped, same] at isArray
        cases isArray
      · cases isClass
    · cases bound

theorem method?_of_mistaken? {invocation : Invocation} {callee : Signature}
    (mistaken : scope.mistaken? invocation = some callee) :
    scope.table.method? invocation.method = some callee := by
  rw [mistaken?] at mistaken
  split at mistaken
  · cases mistaken
  · split at mistaken
    · exact mistaken
    · cases mistaken

end Scope

/-! ### Arguments that are taken -/

namespace Expr

/-- What holds of every call that is noted holds of every call that is made. -/
theorem forall_invocations {each : Invocation → Prop} {expr : Expr}
    (all : ∀ node ∈ everyExpr.onExpr expr, ∀ pos receiver method args,
      node = .call pos receiver method args → each ⟨receiver, method, args⟩) :
    ∀ invocation ∈ expr.invocations, each invocation := by
  induction expr with
  | literal | name | this | newObject => exact nofun
  | binary pos op left right onLeft onRight | index pos left right onLeft onRight =>
    simp only [onExpr, List.forall_mem_append] at all
    rw [invocations, List.forall_mem_append]
    exact ⟨onLeft all.2.1, onRight all.2.2⟩
  | not pos inner onInner | newArray pos inner onInner | length pos inner onInner
  | paren pos inner onInner =>
    rw [onExpr, List.forall_mem_append] at all
    rw [invocations]
    exact onInner all.2
  | call pos receiver method args onReceiver onArgs =>
    obtain ⟨itself, receiverNodes, argNodes⟩ := forall_onExpr_call.mp all
    rw [invocations_call, List.forall_mem_append, List.forall_mem_append, List.forall_mem_flatMap,
      List.forall_mem_flatMap, List.forall_mem_singleton]
    refine ⟨⟨fun expr member => ?_, fun arg member => onArgs arg member (argNodes arg member)⟩,
      itself _ (List.mem_singleton_self _) pos receiver method args rfl⟩
    have isReceiver := Option.mem_toList.mp member
    exact onReceiver expr isReceiver (receiverNodes expr isReceiver)
  | arrayLiteral pos elements onElements =>
    rw [onExpr, List.forall_mem_append, forall_onExprs] at all
    rw [invocations, invocationsAll_eq_flatMap, List.forall_mem_flatMap]
    exact fun element member => onElements element member (all.2 element member)

end Expr

namespace Stmt

theorem forall_invocationsBody_of {each : Invocation → Prop} {body : List Stmt}
    (all : ∀ stmt ∈ body, ∀ invocation ∈ stmt.invocations, each invocation) :
    ∀ invocation ∈ invocationsBody body, each invocation := by
  induction body with
  | nil => exact nofun
  | cons stmt rest inductionHypothesis =>
    obtain ⟨first, others⟩ := List.forall_mem_cons.mp all
    rw [invocationsBody, List.forall_mem_append]
    exact ⟨first, inductionHypothesis others⟩

theorem forall_invocations {each : Invocation → Prop} {stmt : Stmt}
    (all : ∀ node ∈ everyExpr.onStmt stmt, ∀ pos receiver method args,
      node = .call pos receiver method args → each ⟨receiver, method, args⟩) :
    ∀ invocation ∈ stmt.invocations, each invocation := by
  induction stmt with
  | block pos body inductionHypothesis =>
    rw [onStmt, List.forall_mem_append, forall_onBody] at all
    rw [invocations]
    exact forall_invocationsBody_of fun stmt member =>
      inductionHypothesis stmt member (all.2 stmt member)
  | ifElse pos condition thenBranch elseBranch thenHypothesis elseHypothesis =>
    cases elseBranch with
    | none =>
      simp only [onStmt, onCondition, List.forall_mem_append] at all
      rw [invocations, List.forall_mem_append]
      exact ⟨Expr.forall_invocations all.2.1.2, thenHypothesis all.2.2⟩
    | some other =>
      simp only [onStmt, onCondition, List.forall_mem_append] at all
      rw [invocations, List.forall_mem_append, List.forall_mem_append]
      exact ⟨⟨Expr.forall_invocations all.2.1.1.2, thenHypothesis all.2.1.2⟩,
        elseHypothesis other rfl all.2.2⟩
  | whileLoop pos condition body inductionHypothesis =>
    simp only [onStmt, onCondition, List.forall_mem_append] at all
    rw [invocations, List.forall_mem_append]
    exact ⟨Expr.forall_invocations all.2.1.2, inductionHypothesis all.2.2⟩
  | eval pos expr =>
    rw [onStmt, List.forall_mem_append] at all
    rw [invocations]
    exact Expr.forall_invocations all.2
  | assign pos target value =>
    simp only [onStmt, List.forall_mem_append] at all
    rw [invocations, List.forall_mem_append]
    exact ⟨Expr.forall_invocations all.2.1, Expr.forall_invocations all.2.2⟩
  | ret pos value =>
    cases value with
    | none =>
      rw [invocations]
      exact List.forall_mem_nil _
    | some expr =>
      rw [onStmt, List.forall_mem_append] at all
      rw [invocations]
      exact Expr.forall_invocations all.2

end Stmt

/-- Where the check on arguments reports nothing, every method that a call binds to takes the
arguments. -/
theorem Check.takes_of_silent {scope : Scope} {body : List Stmt}
    (silent : ∀ note ∈ (arguments scope).onBody body, note.isError = false) :
    ∀ invocation ∈ Stmt.invocationsBody body, ∀ callee,
      scope.callee? invocation.receiver invocation.method = some callee →
        takes callee invocation.args.length = true := by
  have implies : (arguments scope).Implies (fun note => note.isError = false) everyExpr
      (fun node => ∀ pos receiver method args, node = .call pos receiver method args → ∀ callee,
        scope.callee? receiver method = some callee → takes callee args.length = true) := by
    refine ⟨fun _ _ => nofun, fun _ _ => nofun, fun expr noted => ?_⟩
    refine List.forall_mem_singleton.mpr ?_
    rintro pos receiver method args rfl callee bound
    have silentCall : Silent (callMisfits scope (.call pos receiver method args)) := noted
    simp only [callMisfits, bound, argumentMisfits] at silentCall
    split at silentCall
    · next takes => exact takes
    · exact absurd silentCall (not_silent_error _ _)
  exact Stmt.forall_invocationsBody_of fun stmt member =>
    Stmt.forall_invocations (forall_onBody.mp (implies.onBody silent) stmt member)

/-! ### Descriptors -/

namespace Jasmin

/-- The descriptor that a line calls a method with. -/
def Line.descriptor? : Line → Option MethodDescriptor
  | .invokeVirtual _ _ descriptor | .invokeStatic _ _ descriptor => some descriptor
  | _ => none

/-- Only the type of nothing is described as nothing. -/
theorem eq_void_iff_of_descriptor {code : ClassCode} {ty : Ty} {descriptor : Descriptor}
    (described : code.descriptor ty = .ok descriptor) :
    descriptor = .void ↔ ty.isVoid = true := by
  rw [ClassCode.descriptor] at described
  split at described
  · next base found =>
    obtain rfl := Except.ok.inj described
    rw [ClassCode.baseDescriptor?] at found
    cases isArray : ty.isArray with
    | true => simp [Ty.isVoid, isArray]
    | false =>
      rw [isArray] at found
      split at found <;> cases found <;> simp_all [Ty.isVoid]
  · cases described

/-- A descriptor has the shape of the types that it was made from. -/
theorem shape_of_methodDescriptor {code : ClassCode} {params : List Ty} {result : Ty}
    {descriptor : MethodDescriptor}
    (described : code.methodDescriptor params result = .ok descriptor) :
    descriptor.params.length = params.length ∧
      (descriptor.result = .void ↔ result.isVoid = true) := by
  obtain ⟨paramDescriptors, each, rest⟩ := bind_eq_ok_iff.mp described
  obtain ⟨resultDescriptor, isResult, same⟩ := bind_eq_ok_iff.mp rest
  obtain rfl := Except.ok.inj same
  exact ⟨(mapM_eq_ok_iff.mp each).length_eq.symm, eq_void_iff_of_descriptor isResult⟩

/-- The methods of the code are declared as those of the table. -/
def Declares (code : ClassCode) (table : ClassTable) : Prop :=
  code.name = table.className ∧ ∀ name,
    (code.method? name).map (fun method => (method.params, method.returnType)) =
      (table.method? name).map fun signature => (signature.params, signature.returnType)

namespace Frame

variable {frame : Frame} {scope : Scope}

/-- A call is described by the declaration of a method if it belongs to the class and the class has
such a method. -/
theorem fits_iff_of_own (declares : Declares frame.code scope.table) {call : Call}
    {descriptor : MethodDescriptor} {callee : Signature}
    (declared : scope.table.method? call.method = some callee)
    (described : frame.callDescriptor scope.table.className call = .ok descriptor) :
    descriptor.Fits call ↔ callee.params.length = call.args.length ∧
      (callee.returnType.isVoid = true ↔ call.returnType.isVoid = true) := by
  have header := declares.2 call.method
  rw [declared, Option.map_some, Option.map_eq_some_iff] at header
  obtain ⟨method, found, same⟩ := header
  obtain ⟨sameParams, sameResult⟩ := Prod.mk.inj same
  rw [callDescriptor] at described
  simp only [found, declares.1, if_pos, sameParams, sameResult] at described
  obtain ⟨params, result⟩ := shape_of_methodDescriptor described
  rw [MethodDescriptor.Fits, params, result, List.length_map]

/-- Any other call is described by its own operands and result. -/
theorem fits_of_other (declares : Declares frame.code scope.table) {owner : String} {call : Call}
    {descriptor : MethodDescriptor}
    (other : scope.table.method? call.method = none ∨ owner ≠ scope.table.className)
    (described : frame.callDescriptor owner call = .ok descriptor) : descriptor.Fits call := by
  have byOperands : frame.code.methodDescriptor (call.args.map Operand.ty) call.returnType =
      .ok descriptor := by
    rw [callDescriptor] at described
    split at described
    · next callee found =>
      rcases other with undeclared | elsewhere
      · have header := declares.2 call.method
        rw [found, undeclared] at header
        cases header
      · rwa [if_neg (declares.1 ▸ elsewhere)] at described
    · exact described
  obtain ⟨params, result⟩ := shape_of_methodDescriptor byOperands
  exact ⟨by rw [params, List.length_map], result⟩

/-- The descriptor of a call fits exactly if the call is not mistaken for one with other arguments
or another result. -/
theorem fits_iff (frame : Frame) (declares : Declares frame.code scope.table)
    {invocation : Invocation} {call : Call} (addresses : scope.Addresses invocation call)
    (takes : ∀ callee, scope.callee? invocation.receiver invocation.method = some callee →
      Check.takes callee invocation.args.length = true)
    {descriptor : MethodDescriptor}
    (described : frame.callDescriptor (call.target.owner scope.table.className) call = .ok descriptor) :
    descriptor.Fits call ↔ ∀ callee, scope.mistaken? invocation = some callee →
      callee.params.length = invocation.args.length ∧
        (callee.returnType.isVoid = true ↔ call.returnType.isVoid = true) := by
  cases bound : scope.callee? invocation.receiver invocation.method with
  | some callee =>
    have declared := Scope.method?_of_callee? bound
    obtain ⟨returns, count⟩ := addresses.bound callee bound
    rw [(addresses.owner callee declared).mpr (.inl bound)] at described
    rw [← addresses.method] at declared
    rw [fits_iff_of_own declares declared described]
    refine iff_of_true ⟨(count (takes callee bound)).symm, by rw [returns]⟩ fun other mistaken => ?_
    exact nomatch (Scope.mistaken?_of_callee? bound).symm.trans mistaken
  | none =>
    cases declared : scope.table.method? invocation.method with
    | none =>
      refine iff_of_true (fits_of_other declares (.inl ?_) described) fun callee mistaken => ?_
      · rw [addresses.method, declared]
      · exact nomatch declared.symm.trans (Scope.method?_of_mistaken? mistaken)
    | some callee =>
      have owns := addresses.owner callee declared
      rw [bound] at owns
      -- No method is bound, so what belongs to the class is an array of it.
      by_cases own : call.target.owner scope.table.className = scope.table.className
      · have mistaken := (owns.mp own).resolve_left nofun
        rw [own] at described
        rw [← addresses.method] at declared
        rw [fits_iff_of_own declares declared described, addresses.unbound bound, mistaken]
        simp only [Option.some.injEq, forall_eq']
      · refine iff_of_true (fits_of_other declares (.inr own) described) fun other mistaken => ?_
        obtain rfl :=
          Option.some.inj (declared.symm.trans (Scope.method?_of_mistaken? mistaken))
        exact absurd (owns.mpr (.inr mistaken)) own

/-! ### Calls that are written -/

/-- Every call of an instruction that is selected has lines of its own. -/
theorem succeeds_call_of_select {instr : Instr} {lines : List Line}
    (selected : frame.select instr = .ok lines) {call : Call} (made : call ∈ instr.calls) :
    Succeeds (frame.call call) := by
  cases instr with
  | assign dest rhs ty =>
    obtain ⟨value, valued, -⟩ := bind_eq_ok_iff.mp selected
    cases rhs with
    | call invocation =>
      obtain rfl := List.mem_singleton.mp made
      exact ⟨value, valued⟩
    | assign | discard => cases valued
    | _ => cases made
  | call invocation =>
    obtain rfl := List.mem_singleton.mp made
    rw [select] at selected
    split at selected
    · exact ⟨lines, selected⟩
    · cases selected
  | discard inner =>
    cases inner with
    | call invocation =>
      obtain rfl := List.mem_singleton.mp made
      obtain ⟨called, calls, -⟩ := bind_eq_ok_iff.mp selected
      exact ⟨called, calls⟩
    | _ => cases selected
  | _ => cases made

theorem succeeds_call_of_lines (selected : Succeeds frame.lines) :
    ∀ call ∈ frame.method.body.flatMap Instr.calls, Succeeds (frame.call call) := by
  obtain ⟨lines, selected⟩ := selected
  obtain ⟨blocks, blocksSelected, -⟩ := map_eq_ok_iff.mp selected
  refine List.forall_mem_flatMap.mpr fun instr inBody call made => ?_
  obtain ⟨block, blockSelected⟩ := succeeds_of_mapM ⟨blocks, blocksSelected⟩ instr inBody
  exact succeeds_call_of_select blockSelected made

/-- The last line of a call is made with the descriptor of the call. -/
theorem Calls.descriptor? {call : Call} {lines : List Line} (calls : frame.Calls call lines)
    (regular : call.kind ≠ .constructor) :
    ∃ descriptor, lines.getLast?.bind Line.descriptor? = some descriptor ∧
      frame.callDescriptor (call.target.owner frame.code.name) call = .ok descriptor := by
  cases calls with
  | construct isConstructor => exact absurd isConstructor regular
  | @virtual target owner args descriptor _ _ targets _ described =>
    refine ⟨descriptor, ?_, by rw [targets.owner_eq, described]⟩
    rw [List.getLast?_concat]
    rfl
  | @static owner args descriptor _ onClass _ described =>
    refine ⟨descriptor, ?_, by rw [onClass]; exact described⟩
    rw [List.getLast?_concat]
    rfl

end Frame

/-- Assembly is built only if the lines of every method are selected. -/
theorem succeeds_lines_of_build {code : ClassCode} {limits : Limits} {text : String}
    (built : (Assembler.build { code, limits }).1 = .ok text) :
    ∀ method ∈ code.methods, Succeeds (Frame.lines ⟨code, method⟩) := by
  have written : classText limits code = .ok text := by
    rw [Assembler.build] at built
    cases outcome : classText limits code with
    | ok result => simpa only [outcome] using built
    | error fault => simp only [outcome, reduceCtorEq] at built
  obtain ⟨fields, -, written⟩ := bind_eq_ok_iff.mp written
  obtain ⟨methods, methodsWritten, -⟩ := bind_eq_ok_iff.mp written
  intro method member
  obtain ⟨block, blockWritten⟩ := succeeds_of_mapM ⟨methods, methodsWritten⟩ method member
  obtain ⟨descriptor, -, blockWritten⟩ := bind_eq_ok_iff.mp blockWritten
  obtain ⟨lines, selected, -⟩ := bind_eq_ok_iff.mp blockWritten
  exact ⟨lines, selected⟩

end Jasmin

open Jasmin

namespace ClassTable

/-- Lowering keeps the declarations of the methods. -/
theorem declares_of_lower {program : Program} {before : Counters} {code : ClassCode}
    (lowered : ((ofProgram program).lower program before).1 = .ok code) :
    Declares code (ofProgram program) := by
  refine ⟨congrArg ClassCode.name (compiles_of_lower lowered).1, fun name => ?_⟩
  have compiled := compiles_of_lower_ofProgram lowered
  show (code.methods.find? _).map _ = ((program.classDecl.methods.map _).find? _).map _
  generalize program.classDecl.methods = decls, code.methods = methods at compiled ⊢
  induction compiled with
  | nil => rfl
  | @cons decl method _ _ first _ inductionHypothesis =>
    obtain ⟨_, _, _, -, rfl⟩ := first
    rw [List.map_cons, List.find?_cons, List.find?_cons]
    show Option.map _ (match decl.name == name with | true => _ | false => _) =
      Option.map _ (match decl.name == name with | true => _ | false => _)
    cases decl.name == name with
    | true => rfl
    | false => exact inductionHypothesis

/-- A method that takes trailing arguments has a parameter for them. -/
theorem params_ne_nil_of_isVarargs (program : Program) :
    ∀ callee ∈ (ofProgram program).methods, callee.isVarargs = true → callee.params ≠ [] := by
  refine List.forall_mem_map.mpr fun decl _ isVarargs => ?_
  obtain ⟨last, isLast, -⟩ := (Option.any_eq_true _ _).mp isVarargs
  exact mt List.map_eq_nil_iff.mp (List.ne_nil_of_mem (List.mem_of_getLast? isLast))

/-- If the standard checks report no error and assembly is built, the descriptor of a call has a
parameter for each argument, and a result exactly if the call has one, except that a call on an
array of the class has to agree with the method of the class that it is mistaken for. -/
theorem fits_iff_of_clean {program : Program} {entry : Option String} {report : Report}
    {before : Counters} {code : ClassCode} {limits : Limits} {text : String}
    (named : program.classDecl.name ∉ ["", "int", "boolean", "void"])
    (ran : Check.runAll (Check.standard entry) program (ofProgram program) = .ok report)
    (clean : report.hasErrors = false)
    (lowered : ((ofProgram program).lower program before).1 = .ok code)
    (built : (Assembler.build { code, limits }).1 = .ok text) :
    List.Forall₂
      (fun decl method => List.Forall₂
        (fun invocation call => ∃ lines descriptor,
          Frame.call ⟨code, method⟩ call = .ok lines ∧
          lines.getLast?.bind Line.descriptor? = some descriptor ∧
          (descriptor.Fits call ↔ ∀ callee,
            Scope.mistaken? ⟨ofProgram program, .ofDecl decl⟩ invocation = some callee →
              callee.params.length = invocation.args.length ∧
                (callee.returnType.isVoid = true ↔ call.returnType.isVoid = true)))
        (Stmt.invocationsBody decl.body) (invoked method.body))
      program.classDecl.methods code.methods := by
  have isClass : (ofProgram program).classType.isClass = true := by
    simpa [classType, ofProgram, Ty.named, Ty.isClass, Ty.isUnknown, Ty.isWord, Ty.isInt,
      Ty.isBoolean, Ty.isVoid, and_assoc] using named
  have declares := declares_of_lower lowered
  obtain ⟨notes, noted, silent⟩ :=
    (Check.run_of_runAll ran clean).2 .methodCallArity (by simp [Check.standard])
  have taken (decl : MethodDecl) (member : decl ∈ program.classDecl.methods) :=
    Check.takes_of_silent (Check.forall_overBodies noted silent decl member)
  -- What is known of each declaration and of each method goes with the pairs of the two.
  have compiled := (List.forall₂_and_left _ _).mpr ⟨taken, compiles_of_lower_ofProgram lowered⟩
  refine ((List.forall₂_and_left _ _).mpr
    ⟨succeeds_lines_of_build built, compiled.flip⟩).flip.imp ?_
  rintro decl method ⟨selected, takes, compiles⟩
  have addressed := (List.forall₂_and_left _ _).mpr ⟨takes,
    compiles.inOrder (Scope.addresses_of_call isClass (params_ne_nil_of_isVarargs program))⟩
  have called : ∀ call ∈ invoked method.body,
      call.kind ≠ .constructor ∧ Succeeds (Frame.call ⟨code, method⟩ call) := by
    intro call member
    obtain ⟨inCode, regular⟩ := List.mem_filter.mp member
    exact ⟨bne_iff_ne.mp regular, Frame.succeeds_call_of_lines selected call inCode⟩
  refine ((List.forall₂_and_left _ _).mpr ⟨called, addressed.flip⟩).flip.imp ?_
  rintro invocation call ⟨⟨regular, lines, calls⟩, takesArgs, addresses⟩
  obtain ⟨descriptor, last, described⟩ := (Frame.calls_of_call calls).descriptor? regular
  rw [declares.1] at described
  exact ⟨lines, descriptor, calls, last,
    Frame.fits_iff ⟨code, method⟩ declares addresses takesArgs described⟩

end ClassTable

/-- A class `A` with a method without parameters that is called on an array of the class, with an
argument and for nothing, and on `this`. -/
def Program.peers : Program where
  imports := []
  classDecl :=
    { name := "A"
      superClass := none
      fields := []
      methods :=
        [method "h" .int [] [.ret .nowhere (some (.literal .nowhere (.int 0)))],
          method "g" .void [⟨.ofTy .nowhere (.arrayOf "A"), "a", false, .nowhere⟩]
            [.eval .nowhere (.call .nowhere (some (.name .nowhere "a")) "h"
                [.literal .nowhere (.int 1)]),
              .eval .nowhere (.call .nowhere (some (.this .nowhere)) "h" [])]]
      pos := .nowhere }
  pos := .nowhere
where
  method (name : String) (returnType : Ty) (params : List Param) (body : List Stmt) :
      MethodDecl :=
    { name := name
      isPublic := true
      isStatic := false
      returnType := .ofTy .nowhere returnType
      params := params
      locals := []
      body := body
      pos := .nowhere }

theorem fits_iff_of_clean_peers :
    ∃ code callee caller text onArray onThis,
      Check.runAll (Check.standard none) .peers (.ofProgram .peers) = .ok .empty ∧
      ((ClassTable.ofProgram .peers).lower .peers {}).1 = .ok code ∧
      code.methods = [callee, caller] ∧ (Assembler.build ⟨code, {}, none⟩).1 = .ok text ∧
      invoked caller.body = [onArray, onThis] ∧
      (∃ lines descriptor, Frame.call ⟨code, caller⟩ onArray = .ok lines ∧
        lines.getLast?.bind Line.descriptor? = some descriptor ∧ ¬ descriptor.Fits onArray) ∧
      ∃ lines descriptor, Frame.call ⟨code, caller⟩ onThis = .ok lines ∧
        lines.getLast?.bind Line.descriptor? = some descriptor ∧ descriptor.Fits onThis := by
  obtain ⟨code, text, lowered, built⟩ : ∃ code text,
      ((ClassTable.ofProgram .peers).lower .peers {}).1 = .ok code ∧
      (Assembler.build ⟨code, {}, none⟩).1 = .ok text := ⟨_, _, rfl, rfl⟩
  have ran : Check.runAll (Check.standard none) .peers (.ofProgram .peers) = .ok .empty := rfl
  obtain ⟨callee, _, -, others, isFirst⟩ := List.forall₂_cons_left_iff.mp
    (ClassTable.fits_iff_of_clean (by decide) ran rfl lowered built)
  obtain ⟨caller, _, calls, none, rfl⟩ := List.forall₂_cons_left_iff.mp others
  obtain rfl := List.forall₂_nil_left_iff.mp none
  obtain ⟨onArray, _, ⟨arrayLines, arrayDescriptor, arrayCalled, arrayLast, arrayFits⟩, rest,
    isAll⟩ := List.forall₂_cons_left_iff.mp calls
  obtain ⟨onThis, _, ⟨thisLines, thisDescriptor, thisCalled, thisLast, thisFits⟩, none, rfl⟩ :=
    List.forall₂_cons_left_iff.mp rest
  obtain rfl := List.forall₂_nil_left_iff.mp none
  refine ⟨code, callee, caller, text, onArray, onThis, ran, lowered, isFirst, built, isAll,
    ⟨arrayLines, arrayDescriptor, arrayCalled, arrayLast, fun fits => ?_⟩,
    thisLines, thisDescriptor, thisCalled, thisLast, thisFits.mpr nofun⟩
  exact absurd (arrayFits.mp fits _ rfl).1 (by decide)

/-- That the standard checks report no error does not guarantee that the descriptors of calls fit
them. -/
theorem clean_not_fitting :
    ¬∀ (program : Program) (entry : Option String) (report : Report) (before : Counters)
      (code : ClassCode) (limits : Limits) (text : String),
      program.classDecl.name ∉ ["", "int", "boolean", "void"] →
      Check.runAll (Check.standard entry) program (.ofProgram program) = .ok report →
      report.hasErrors = false →
      ((ClassTable.ofProgram program).lower program before).1 = .ok code →
      (Assembler.build { code, limits }).1 = .ok text →
      ∀ method ∈ code.methods, ∀ call ∈ invoked method.body, ∀ lines descriptor,
        Frame.call ⟨code, method⟩ call = .ok lines →
        lines.getLast?.bind Line.descriptor? = some descriptor → descriptor.Fits call := by
  intro guarantees
  have fits := guarantees .peers none .empty {} _ {} _ (by decide) rfl rfl rfl rfl
  have onArray :=
    fits _ (List.mem_cons_of_mem _ List.mem_cons_self) _ List.mem_cons_self _ _ rfl rfl
  exact absurd onArray (by decide)

end JavaMinus
