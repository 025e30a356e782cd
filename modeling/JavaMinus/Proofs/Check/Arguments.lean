/-
This file shows that a call passes what the method declares. The check on
arguments and lowering each split the arguments of a call into those that have a
parameter of their own and the trailing ones, and each decides whether trailing
arguments are packed or passed on as an array. If the check has nothing to say
about a call that binds to a method of the class, then the operands of the lowered
call have the declared types of the parameters, one for each and in their order.

The check is silent about an argument of unknown type. Where all declared types
and all classes have names, only a foreign call has such a type and a value all
the same, and its value has the type of the parameter, because this is the type
that is asked for.
-/

import JavaMinus.Proofs.Check.Coverage
import JavaMinus.Proofs.Jasmin.Descriptors
import JavaMinus.Proofs.Lowering.OperandTypes

namespace JavaMinus

open Observer

/-! ### Expressions in expressions -/

/-- What stands in an expression of a construct stands in the construct. -/
theorem Observer.mem_onConstruct_of_mem_onExpr {construct : Construct} {expr inner : Expr}
    (member : expr ∈ everyExpr.onConstruct construct) (inside : inner ∈ everyExpr.onExpr expr) :
    inner ∈ everyExpr.onConstruct construct := by
  induction construct using Construct.induct with
  | step construct inductionHypothesis =>
    rw [onConstruct_eq, List.mem_append, List.mem_flatMap] at member
    rcases member with itself | ⟨part, isPart, inPart⟩
    · cases construct with
      | stmt stmt => cases stmt <;> cases itself
      | expr whole =>
        rw [List.mem_singleton.mp itself] at inside
        exact inside
    · rw [onConstruct_eq, List.mem_append, List.mem_flatMap]
      exact .inr ⟨part, isPart, inductionHypothesis part isPart inPart⟩

theorem Observer.mem_onBody_of_mem_onExpr {body : List Stmt} {expr inner : Expr}
    (member : expr ∈ everyExpr.onBody body) (inside : inner ∈ everyExpr.onExpr expr) :
    inner ∈ everyExpr.onBody body := by
  rw [onBody_eq_flatMap, List.mem_flatMap] at member ⊢
  obtain ⟨stmt, inBody, inStmt⟩ := member
  have inConstruct : expr ∈ everyExpr.onConstruct (.stmt stmt) := inStmt
  exact ⟨stmt, inBody, mem_onConstruct_of_mem_onExpr inConstruct inside⟩

/-! ### Declared types -/

/-- The types that a class declares: its own, those of its fields, and those of the results, the
parameters and the locals of its methods. -/
def ClassTable.declaredTypes (table : ClassTable) : List Ty :=
  table.classType :: table.fields.map Binding.ty ++ table.methods.flatMap fun method =>
    method.returnType :: (method.params ++ method.locals).map Binding.ty

namespace Scope

variable {scope : Scope}

/-- The type of a variable is declared. -/
theorem ty_mem_declaredTypes (declared : scope.method ∈ scope.table.methods) {name : String}
    {found : Variable} (resolved : scope.lookup? name = some found) :
    found.ty ∈ scope.table.declaredTypes := by
  have inMethod {binding : Binding}
      (member : binding ∈ scope.method.params ++ scope.method.locals) :
      binding.ty ∈ scope.table.declaredTypes :=
    List.mem_append_right _ (List.mem_flatMap.mpr
      ⟨scope.method, declared, List.mem_cons_of_mem _ (List.mem_map_of_mem member)⟩)
  rcases lookup?_cases resolved with ⟨binding, rfl, -, isField⟩ | ⟨_, binding, rfl, isParam⟩ |
    ⟨binding, rfl, isLocal⟩
  · refine List.mem_append_left _ (List.mem_cons_of_mem _ (List.mem_map_of_mem ?_))
    exact List.mem_of_find?_eq_some isField
  · simp only [Signature.param?, Option.bind_eq_bind, Option.bind_eq_some_iff, Option.pure_def,
      Option.some.injEq, Prod.mk.injEq] at isParam
    obtain ⟨_, -, param, at?, rfl, rfl⟩ := isParam
    exact inMethod (List.mem_append_left _ (List.mem_of_getElem? at?))
  · exact inMethod (List.mem_append_right _ (List.mem_of_find?_eq_some isLocal))

/-- The result of a call that binds to a method of the class has a declared type. -/
theorem returnType_mem_declaredTypes {receiver : Option Expr} {method : String}
    {callee : Signature} (bound : scope.callee? receiver method = some callee) :
    callee.returnType ∈ scope.table.declaredTypes :=
  List.mem_append_right _ (List.mem_flatMap.mpr
    ⟨callee, mem_methods_of_callee? bound, List.mem_cons_self⟩)

/-- A value of unknown type is that of a foreign call, if all types and classes have names. -/
theorem isForeign_of_isUnknown (declared : scope.method ∈ scope.table.methods)
    (named : ∀ ty ∈ scope.table.declaredTypes, ty.isUnknown = false) {expr : Expr}
    (objects : ∀ pos className, .newObject pos className ∈ everyExpr.onExpr expr → className ≠ "")
    {expected : Ty} {result : Operand} {before after : Counters} {code : List Instr}
    (lowers : Lowers scope (.value expr expected result) before code after)
    (isUnknown : (scope.typeOf expr).isUnknown = true) : scope.isForeign expr = true := by
  induction expr generalizing expected result before code after with
  | literal pos value => cases value <;> cases isUnknown
  | name pos text =>
    have resolved {found : Variable} (found? : scope.lookup? text = some found) :
        (scope.typeOf (.name pos text)).isUnknown = false := by
      rw [typeOf, nameType, found?]
      exact named _ (ty_mem_declaredTypes declared found?)
    cases lowers with
    | field found => exact absurd isUnknown (by rw [resolved found]; decide)
    | var found => exact absurd isUnknown (by rw [resolved found]; decide)
    | materialize branching => cases branching
  | this pos =>
    have isNamed : scope.table.classType.isUnknown = false := named _ List.mem_cons_self
    exact absurd isUnknown (by rw [typeOf, isNamed]; decide)
  | binary pos op left right => cases op <;> cases isUnknown
  | call pos receiver method args =>
    rw [isForeign_call]
    cases bound : scope.callee? receiver method with
    | none => rfl
    | some callee =>
      rw [typeOf_call, bound, Option.map_some, Option.getD_some,
        named _ (returnType_mem_declaredTypes bound)] at isUnknown
      cases isUnknown
  | newObject pos className =>
    exact absurd (beq_iff_eq.mp isUnknown) (objects pos className List.mem_cons_self)
  | paren pos inner inductionHypothesis =>
    rw [onExpr] at objects
    rw [typeOf] at isUnknown
    cases lowers with
    | paren innerLowers =>
      rw [isForeign_paren]
      exact inductionHypothesis
        (fun pos className member => objects pos className (List.mem_append_right _ member))
        innerLowers isUnknown
    | materialize branching => cases branching
  | _ => cases isUnknown

/-! ### Arguments -/

/-- A value that is asked for at its own type, or whose type only a foreign call leaves open, has
the type that is asked for. -/
theorem ty_eq_expected {expr : Expr} {expected : Ty} {result : Operand} {before after : Counters}
    {code : List Instr} (lowers : Lowers scope (.value expr expected result) before code after)
    (suits : scope.isForeign expr = true ∨ scope.typeOf expr = expected) :
    result.ty = expected := by
  have typed := lowers.operandTyped
  rw [Phrase.OperandTyped, OperandTyped] at typed
  split at typed
  · exact typed.1
  · next notForeign => exact typed.trans (suits.resolve_left notForeign)

theorem types_of_values {items : List (Expr × Ty)} {results : List Operand}
    {before after : Counters} {code : List Instr}
    (lowers : Lowers scope (.values items results) before code after)
    (suits : ∀ item ∈ items, ∀ {result before code after},
      Lowers scope (.value item.1 item.2 result) before code after →
        scope.isForeign item.1 = true ∨ scope.typeOf item.1 = item.2) :
    results.map Operand.ty = items.map Prod.snd := by
  induction items generalizing results before code with
  | nil =>
    cases lowers
    rfl
  | cons item rest inductionHypothesis =>
    obtain ⟨first, others⟩ := List.forall_mem_cons.mp suits
    cases lowers with
    | moreValues firstLowers restLowers =>
      rw [List.map_cons, List.map_cons, ty_eq_expected firstLowers (first firstLowers),
        inductionHypothesis restLowers others]

/-- With enough arguments, all fixed parameters are asked for. -/
theorem map_snd_fixedItems {callee : Signature} {args : List Expr}
    (enough : callee.fixedArity ≤ args.length) :
    (fixedItems callee args).map Prod.snd =
      (callee.params.take callee.fixedArity).map Binding.ty := by
  have short : (callee.params.take callee.fixedArity).length ≤ args.length :=
    Nat.le_trans (List.length_take_le _ _) enough
  conv_rhs => rw [← List.map_snd_zip short, List.map_map]
  rw [fixedItems, List.map_map]
  rfl

end Scope

/-- The parameters are the fixed ones, and behind them the one that takes trailing arguments. -/
theorem Signature.params_of_restParam? {callee : Signature} {param : Binding}
    (rest : callee.restParam? = some param) :
    callee.params = callee.params.take callee.fixedArity ++ [param] := by
  rw [restParam?] at rest
  split at rest
  · next isVarargs =>
    rw [fixedArity, if_pos isVarargs, ← List.dropLast_eq_take]
    exact (List.dropLast_append_getLast? param rest).symm
  · cases rest

theorem Signature.fixedArity_of_noRest (callee : Signature)
    (filled : callee.isVarargs = true → callee.params ≠ []) (noRest : callee.restParam? = none) :
    callee.fixedArity = callee.params.length := by
  rw [restParam?] at noRest
  split at noRest
  · next isVarargs => exact absurd (List.getLast?_eq_none_iff.mp noRest) (filled isVarargs)
  · next notVarargs => rw [fixedArity, if_neg notVarargs]

/-- A call that the check has nothing to say about has enough arguments, and those that have a
parameter of their own have its type as far as theirs is known. -/
theorem Check.fixed_of_argumentMisfits {scope : Scope} {callee : Signature} {pos : Pos}
    {method : String} {args : List Expr}
    (accepted : argumentMisfits scope callee pos method args = []) :
    takes callee args.length = true ∧ ∀ item ∈ Scope.fixedItems callee args,
      (scope.typeOf item.1).isUnknown = true ∨ scope.typeOf item.1 = item.2 := by
  rw [argumentMisfits] at accepted
  split at accepted
  · next taken =>
    refine ⟨taken, fun item member => ?_⟩
    obtain ⟨pair, isPair, rfl⟩ := List.mem_map.mp member
    rw [← List.zipIdx_map_fst 0 (args.zip _)] at isPair
    obtain ⟨⟨⟨arg, param⟩, position⟩, numbered, rfl⟩ := List.mem_map.mp isPair
    have silent := List.flatMap_eq_nil_iff.mp (List.append_eq_nil_iff.mp accepted).1 _ numbered
    dsimp only [misfit] at silent
    split at silent
    · next fine => simpa using fine
    · cases silent
  · cases accepted

/-- A call that the check accepts passes operands of the declared types. -/
theorem Scope.map_ty_args_of_call {scope : Scope} (declared : scope.method ∈ scope.table.methods)
    (named : ∀ ty ∈ scope.table.declaredTypes, ty.isUnknown = false) {receiver : Option Expr}
    {method : String} {args : List Expr}
    (objects : ∀ arg ∈ args, ∀ pos className, .newObject pos className ∈ everyExpr.onExpr arg →
      className ≠ "")
    {callee : Signature} (bound : scope.callee? receiver method = some callee)
    (filled : callee.isVarargs = true → callee.params ≠ [])
    (isArray : ∀ param, callee.restParam? = some param → param.ty.isArray = true) {pos : Pos}
    (accepted : Check.argumentMisfits scope callee pos method args = []) {expected : Ty}
    {call : Call} {before after : Counters} {code : List Instr}
    (lowers : Lowers scope (.call receiver method args expected call) before code after) :
    call.args.map Operand.ty = callee.paramTypes := by
  obtain ⟨taken, fixed⟩ := Check.fixed_of_argumentMisfits accepted
  have suits : ∀ item ∈ fixedItems callee args, ∀ {result before code after},
      Lowers scope (.value item.1 item.2 result) before code after →
        scope.isForeign item.1 = true ∨ scope.typeOf item.1 = item.2 := by
    intro item member result before code after lowers
    refine (fixed item member).imp_left fun isUnknown => ?_
    exact isForeign_of_isUnknown declared named (objects _ (mem_of_mem_fixedItems member)) lowers
      isUnknown
  have withRest {param : Binding} (rest : callee.restParam? = some param) :
      (fixedItems callee args).map Prod.snd ++ [param.ty] = callee.paramTypes := by
    rw [map_snd_fixedItems (fixedArity_of_takes rest taken).1, Signature.paramTypes]
    conv_rhs => rw [Signature.params_of_restParam? rest, List.map_append]
    rfl
  cases lowers with
  | unbound noCallee => exact nomatch noCallee.symm.trans bound
  | bound isCallee noRest _ argsLowers =>
    obtain rfl := Option.some.inj (bound.symm.trans isCallee)
    have arity := callee.fixedArity_of_noRest filled noRest
    have count : callee.fixedArity = args.length :=
      arity.trans (length_of_takes filled noRest taken).symm
    rw [List.drop_eq_nil_of_le (Nat.le_of_eq count.symm), List.map_nil, List.append_nil]
      at argsLowers
    rw [types_of_values argsLowers suits, map_snd_fixedItems (Nat.le_of_eq count), arity,
      List.take_length, Signature.paramTypes]
  | passed isCallee rest _ single _ argsLowers =>
    obtain rfl := Option.some.inj (bound.symm.trans isCallee)
    rw [← withRest rest]
    refine (types_of_values argsLowers fun item member => ?_).trans List.map_append
    rcases List.mem_append.mp member with inFixed | inLast
    · exact suits item inFixed
    · rw [List.mem_singleton.mp inLast]
      exact fun _ => .inr single
  | @packed _ _ _ _ _ param _ _ _ array _ _ _ _ _ _ _ isCallee rest _ _ argsLowers packLowers =>
    obtain rfl := Option.some.inj (bound.symm.trans isCallee)
    have packedType : array.ty = param.ty := by
      rw [packLowers.resultTyped, Ty.element?, if_pos (isArray param rest)]
      show Ty.arrayOf param.ty.base = param.ty
      rw [Ty.arrayOf, ← isArray param rest]
    rw [List.map_append, types_of_values argsLowers suits, ← withRest rest, List.map_singleton,
      packedType]

namespace ClassTable

/-- If all declared types and the classes of all new objects have names, and the check on arguments
reports nothing at a call that binds to a method of the class, then the call is lowered, if at all,
to one whose operands have the declared types of the parameters, in order. -/
theorem argTypes_eq_paramTypes {program : Program}
    (named : ∀ ty ∈ (ofProgram program).declaredTypes, ty.isUnknown = false)
    (objects : ∀ decl ∈ program.classDecl.methods, ∀ pos className,
      .newObject pos className ∈ everyExpr.onBody decl.body → className ≠ "")
    {decl : MethodDecl} (member : decl ∈ program.classDecl.methods) {pos : Pos}
    {receiver : Option Expr} {method : String} {args : List Expr}
    (inBody : .call pos receiver method args ∈ everyExpr.onBody decl.body) {callee : Signature}
    (bound : Scope.callee? ⟨ofProgram program, .ofDecl decl⟩ receiver method = some callee)
    (accepted : Check.noteAt .methodCallArity ⟨ofProgram program, .ofDecl decl⟩
      (.expr (.call pos receiver method args)) = [])
    {expected : Ty} {before : Counters} {call : Call}
    (lowered : (Scope.invocation ⟨ofProgram program, .ofDecl decl⟩ receiver method args expected
      before).outcome = .ok call) :
    call.args.map Operand.ty = callee.paramTypes := by
  have isMethod := Scope.method?_of_callee? bound
  have misfits : Check.argumentMisfits ⟨ofProgram program, .ofDecl decl⟩ callee pos method args =
      [] := by
    simpa only [Check.noteAt, Check.callMisfits, bound] using accepted
  have lowers := Scope.lowers_call (fun expr _ => Scope.sound _ expr)
    (fun arg _ => Scope.sound _ arg) (Lower.gives_of_ok lowered)
  refine Scope.map_ty_args_of_call (List.mem_map_of_mem member) named (fun arg isArg => ?_) bound
    (params_ne_nil_of_isVarargs program callee (Scope.mem_methods_of_callee? bound))
    (fun param => isArray_of_restParam? isMethod) misfits lowers
  intro pos className inArg
  refine objects decl member pos className (mem_onBody_of_mem_onExpr inBody ?_)
  exact (forall_onExpr_call.mp fun _ inCall => inCall).2.2 arg isArg _ inArg

end ClassTable

/-- A class with a method that takes an integer, a truth value and any number of integers, and that
calls itself with foreign calls among the fixed and the trailing arguments, without trailing
arguments, and with an array for them. -/
def Program.variadic : Program where
  imports := [⟨["io", "Lib"], .nowhere⟩]
  classDecl :=
    { name := "A"
      superClass := none
      fields := []
      methods := [method]
      pos := .nowhere }
  pos := .nowhere
where
  foreign : Expr := .call .nowhere (some (.name .nowhere "Lib")) "read" []
  arguments : List (List Expr) :=
    [[foreign, .literal .nowhere (.bool true), .literal .nowhere (.int 1), foreign],
      [.literal .nowhere (.int 2), foreign],
      [.literal .nowhere (.int 3), foreign, .newArray .nowhere foreign]]
  method : MethodDecl :=
    { name := "f"
      isPublic := true
      isStatic := true
      returnType := .ofTy .nowhere .void
      params :=
        [⟨.ofTy .nowhere .int, "n", false, .nowhere⟩,
          ⟨.ofTy .nowhere .boolean, "b", false, .nowhere⟩,
          ⟨.ofTy .nowhere .int, "rest", true, .nowhere⟩]
      locals := []
      body := arguments.map fun args => .eval .nowhere (.call .nowhere none "f" args)
      pos := .nowhere }
  scope : Scope := ⟨.ofProgram .variadic, .ofDecl method⟩

theorem argTypes_eq_paramTypes_variadic :
    ∃ calls, List.Forall₂
      (fun args call =>
        Check.noteAt .methodCallArity Program.variadic.scope
          (.expr (.call .nowhere none "f" args)) = [] ∧
        (Program.variadic.scope.invocation none "f" args .void {}).outcome = .ok call ∧
        call.args.map Operand.ty = [.int, .boolean, .intArray])
      Program.variadic.arguments calls := by
  have named : ∀ ty ∈ (ClassTable.ofProgram .variadic).declaredTypes, ty.isUnknown = false := by
    decide
  have objects : ∀ decl ∈ Program.variadic.classDecl.methods, ∀ pos className,
      .newObject pos className ∈ everyExpr.onBody decl.body → className ≠ "" := by
    simp [Program.variadic, Program.variadic.method, Program.variadic.arguments,
      Program.variadic.foreign, onBody, onStmt, onExpr, onExprs, everyExpr]
  have accepted : ∀ args ∈ Program.variadic.arguments, Check.noteAt .methodCallArity
      Program.variadic.scope (.expr (.call .nowhere none "f" args)) = [] := by decide
  have typed {args : List Expr} {call : Call} (member : args ∈ Program.variadic.arguments)
      (lowered : (Program.variadic.scope.invocation none "f" args .void {}).outcome = .ok call) :
      Check.noteAt .methodCallArity Program.variadic.scope
          (.expr (.call .nowhere none "f" args)) = [] ∧
        (Program.variadic.scope.invocation none "f" args .void {}).outcome = .ok call ∧
        call.args.map Operand.ty = [.int, .boolean, .intArray] := by
    have inBody : .call .nowhere none "f" args ∈
        everyExpr.onBody Program.variadic.method.body := by
      rw [onBody_eq_flatMap, List.mem_flatMap]
      refine ⟨_, List.mem_map_of_mem member, ?_⟩
      rw [onStmt]
      exact List.mem_append_right _ (mem_everyExpr _)
    exact ⟨accepted args member, lowered, ClassTable.argTypes_eq_paramTypes named objects
      (List.mem_singleton_self _) inBody rfl (accepted args member) lowered⟩
  exact ⟨_, .cons (typed (by simp [Program.variadic.arguments]) rfl)
    (.cons (typed (by simp [Program.variadic.arguments]) rfl)
      (.cons (typed (by simp [Program.variadic.arguments]) rfl) .nil))⟩

end JavaMinus
