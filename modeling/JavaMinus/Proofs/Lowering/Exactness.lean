/-
This file shows that the rules of lowering are exact. That every successful
lowering is an instance of a rule is shown with the rules themselves; here it is
shown that whatever the rules allow is what lowering gives. So a phrase is
lowered by the rules if and only if lowering it succeeds with that code and those
counters, and a fact about the code of a part can be read either way.
-/

import JavaMinus.Proofs.Lowering.Success

namespace JavaMinus

namespace Lower

variable {α β : Type} {before middle after : Counters} {code restCode : List Instr}

theorem Gives.bind {first : Lower α} {next : α → Lower β} {result : α} {final : β}
    (start : first.Gives before result code middle)
    (rest : (next result).Gives middle final restCode after) :
    (first >>= next).Gives before final (code ++ restCode) after :=
  gives_bind.mpr ⟨result, code, middle, restCode, start, rfl, rest⟩

/-- Behind a step, one that appends nothing. -/
theorem Gives.followed {first : Lower α} {next : α → Lower β} {result : α} {final : β}
    (start : first.Gives before result code middle)
    (rest : (next result).Gives middle final [] after) :
    (first >>= next).Gives before final code after := by
  have all := start.bind rest
  rwa [List.append_nil] at all

/-- Before a step, an instruction. -/
theorem Gives.emitted {instr : Instr} {next : Unit → Lower β} {final : β}
    (rest : (next ()).Gives before final code after) :
    (emit instr >>= next).Gives before final (instr :: code) after :=
  gives_emit_bind.mpr ⟨code, rfl, rest⟩

theorem Gives.joining {body : Lower Unit} (gives : body.Gives before () code after)
    (target : Label) : (joining target body).Gives before () (joined target code) after :=
  gives_joining.mpr ⟨code, gives, rfl⟩

end Lower

namespace Scope

open Lower Emission

variable {scope : Scope}

/-! ### The steps of a call -/

/-- Compute a value that is asked for at a type. -/
def lowerItem (scope : Scope) (item : Expr × Ty) : Lower Operand :=
  scope.lowerValue item.1 item.2

/-- The steps that compute the arguments of a call, one for each operand. -/
def argumentSteps (scope : Scope) (callee : Option Signature) (args : List Expr) :
    List (Lower Operand) :=
  match callee with
  | none => (args.map scope.bareItem).map scope.lowerItem
  | some signature =>
    (fixedItems signature args).map scope.lowerItem ++
      match signature.restParam? with
      | some param =>
        [restOperand scope param (scope.arguments (args.drop signature.fixedArity))]
      | none => ((args.drop signature.fixedArity).map scope.bareItem).map scope.lowerItem

/-- The arguments are computed by these steps, one after the other. -/
theorem operands_eq_mapM (scope : Scope) (callee : Option Signature) (args : List Expr) :
    operands scope callee (scope.arguments args) = (scope.argumentSteps callee args).mapM id := by
  have items (steps : List (Expr × Ty)) :
      (steps.map scope.lowerItem).mapM id = steps.mapM fun item => scope.lowerValue item.1 item.2 :=
    List.mapM_map
  cases callee with
  | none => rw [operands, mapM_bare, argumentSteps, items]
  | some signature =>
    rw [operands, mapM_fixed, drop_arguments, argumentSteps, List.mapM_append, items]
    cases signature.restParam? with
    | none => simp only [mapM_bare, items]
    | some param => simp only [List.mapM_cons, List.mapM_nil, id, bind_assoc, pure_bind]

theorem argumentSteps_bound {signature : Signature} (noRest : signature.restParam? = none)
    (args : List Expr) :
    scope.argumentSteps (some signature) args =
      (fixedItems signature args ++ (args.drop signature.fixedArity).map scope.bareItem).map
        scope.lowerItem := by
  rw [argumentSteps, noRest, List.map_append]

theorem argumentSteps_passed {signature : Signature} {param : Binding} {args : List Expr}
    {arg : Expr} (rest : signature.restParam? = some param)
    (single : args.drop signature.fixedArity = [arg]) (isArray : scope.typeOf arg = param.ty) :
    scope.argumentSteps (some signature) args =
      (fixedItems signature args ++ [(arg, param.ty)]).map scope.lowerItem := by
  have passes :
      restOperand scope param (scope.arguments [arg]) = scope.lowerItem (arg, param.ty) := by
    simp only [arguments, restOperand, isArray, if_true]
    rfl
  rw [argumentSteps, rest, single, List.map_append]
  simp only [passes, List.map_cons, List.map_nil]

theorem argumentSteps_packed {signature : Signature} {param : Binding} {args : List Expr}
    (rest : signature.restParam? = some param)
    (notArray : ∀ arg, args.drop signature.fixedArity = [arg] → scope.typeOf arg ≠ param.ty) :
    scope.argumentSteps (some signature) args =
      (fixedItems signature args).map scope.lowerItem ++
        [pack scope (param.ty.element?.getD .int)
          ((args.drop signature.fixedArity).map scope.emission)] := by
  rw [argumentSteps, rest]
  simp only [List.append_cancel_left_eq, List.cons.injEq, and_true]
  unfold restOperand
  rw [map_emission_arguments]
  match trailing : args.drop signature.fixedArity with
  | [] => rfl
  | [arg] => simp only [arguments, if_neg (notArray arg trailing)]
  | _ :: _ :: _ => rfl

/-! ### What a call is made on -/

theorem target_of_static {method : String}
    (isStatic : ((scope.table.method? method).map Signature.isStatic).getD
      scope.method.isStatic = true) :
    scope.target none method = pure (.static, .ofClass scope.table.className) := by
  rw [target, implicitTarget]
  cases declared : scope.table.method? method with
  | some callee =>
    rw [declared] at isStatic
    exact if_pos isStatic
  | none =>
    rw [declared] at isStatic
    exact if_pos isStatic

theorem target_of_instance {method : String} (inInstance : scope.method.isStatic = false)
    (notStatic : ((scope.table.method? method).map Signature.isStatic).getD false = false) :
    scope.target none method = pure (.virtual, .this) := by
  rw [target, implicitTarget]
  cases declared : scope.table.method? method with
  | some callee =>
    have isInstance : callee.isStatic = false := by rwa [declared] at notStatic
    simp [isInstance, inInstance]
  | none => simp [inInstance]

theorem target_of_isThis {receiver : Expr} (isThis : receiver.isThis = true) {method : String} :
    scope.target (some receiver) method = pure (.virtual, .this) := by
  obtain ⟨pos, same⟩ := Expr.stripped_of_isThis isThis
  rw [target, explicitTarget, same]

theorem target_of_class {receiver : Expr} {pos : Pos} {className method : String}
    (named : receiver.stripped = .name pos className) (notVariable : scope.lookup? className = none)
    (known : scope.table.isKnownClass className = true) :
    scope.target (some receiver) method = pure (.static, .ofClass className) := by
  rw [target, explicitTarget, named]
  simp [notVariable, known]

theorem target_of_value {receiver : Expr} (notThis : receiver.isThis = false)
    (notClass : ∀ pos className, receiver.stripped = .name pos className →
      scope.lookup? className = none → scope.table.isKnownClass className = false)
    {method : String} :
    scope.target (some receiver) method = onValue (scope.emission receiver) := by
  rw [target, explicitTarget]
  split
  · next pos isThis =>
    rw [Expr.isThis, isThis] at notThis
    cases notThis
  · next pos className named =>
    refine if_neg ?_
    rw [Bool.and_eq_true, Option.isNone_iff_eq_none]
    rintro ⟨notVariable, known⟩
    rw [notClass pos className named notVariable] at known
    cases known
  · rfl

/-! ### The other way to lower an expression -/

/-- What has no rule of its own as a jump is tested. -/
theorem lowerJump_of_plain {expr : Expr} (plain : expr.hasJump = false) (onTrue onFalse : Label) :
    scope.lowerJump expr onTrue onFalse =
      (ofValue (scope.lowerValue expr)).jump onTrue onFalse := by
  cases expr with
  | literal pos value =>
    cases value with
    | int value => rfl
    | bool value => cases plain
  | binary pos op left right =>
    cases op with
    | arith op => rfl
    | _ => cases plain
  | call pos receiver method args => cases receiver <;> rfl
  | not _ _ | paren _ _ => cases plain
  | _ => rfl

/-- What is natural as a jump has its value made from it. -/
theorem lowerValue_of_branching {expr : Expr} (branching : expr.isBranching = true) (ty : Ty) :
    scope.lowerValue expr ty = materialize scope (scope.lowerJump expr) := by
  cases expr with
  | binary pos op left right =>
    cases op with
    | arith op => cases branching
    | _ => rfl
  | not _ _ => rfl
  | _ => cases branching

end Scope

/-! ### Everything that the rules allow -/

open Lower Scope

/-- Lowering a phrase gives some code and leaves some counters. -/
def Phrase.Given (scope : Scope) (before : Counters) (code : List Instr) (after : Counters) :
    Phrase → Prop
  | .value expr expected result => (scope.lowerValue expr expected).Gives before result code after
  | .jump expr onTrue onFalse => (scope.lowerJump expr onTrue onFalse).Gives before () code after
  | .values items results => ((items.map scope.lowerItem).mapM id).Gives before results code after
  | .fill array element position items =>
    (Emission.fill array element position (items.map scope.emission)).Gives before () code after
  | .pack element items result =>
    (Emission.pack scope element (items.map scope.emission)).Gives before result code after
  | .target receiver method kind result =>
    (scope.target receiver method).Gives before (kind, result) code after
  | .call receiver method args expected result =>
    (scope.invocation receiver method args expected).Gives before result code after
  | .stmt single => (scope.lowerStmt single).Gives before () code after
  | .body stmts => (scope.lowerBody stmts).Gives before () code after

/-- A call is given by what it is made on and by the steps of its arguments. -/
theorem given_call {scope : Scope} {receiver : Option Expr} {method : String} {args : List Expr}
    {callee : Option Signature} {expected : Ty} {kind : CallKind} {target : CallTarget}
    {results : List Operand} {before middle after : Counters} {targetCode argsCode : List Instr}
    (bound : scope.callee? receiver method = callee)
    (targetGiven : (scope.target receiver method).Gives before (kind, target) targetCode middle)
    (argsGiven : ((scope.argumentSteps callee args).mapM id).Gives middle results argsCode after) :
    (scope.invocation receiver method args expected).Gives before
      ⟨kind, target, method, results, (callee.map Signature.returnType).getD expected⟩
      (targetCode ++ argsCode) after := by
  rw [invocation, Emission.invoke, bound, operands_eq_mapM]
  simp only [gives_bind, gives_pure]
  exact ⟨_, _, _, _, targetGiven, rfl, _, _, _, _, argsGiven, (List.append_nil _).symm, rfl, rfl,
    rfl⟩

theorem Lowers.given {scope : Scope} {phrase : Phrase} {before after : Counters}
    {code : List Instr} (lowers : Lowers scope phrase before code after) :
    phrase.Given scope before code after := by
  induction lowers with
  | int | bool | this | decided | newObject | noValues | filled | noStmts | returnNothing =>
    exact rfl
  | field found =>
    rw [Phrase.Given, lowerValue, emission]
    simp only [Emission.name, Emission.ofValue, found]
    exact rfl
  | @var _ name found _ _ resolved notField =>
    rw [Phrase.Given, lowerValue, emission]
    simp only [Emission.name, Emission.ofValue, resolved]
    cases found with
    | field binding => cases notField
    | param _ _ | loc _ => exact rfl
  | arith _ _ left right | index _ _ left right =>
    rw [List.append_assoc]
    exact left.bind (right.bind rfl)
  | newArray _ inner | length _ inner => exact inner.bind rfl
  | callValue _ valued call =>
    rw [Phrase.Given, lowerValue, emission_call]
    refine call.bind ?_
    simp only [valued]
    exact rfl
  | arrayLiteral _ packed =>
    rw [Phrase.Given, lowerValue, emission, map_emission_arguments]
    exact packed
  | paren _ inner | not _ inner | parenJump _ inner => exact inner
  | materialize branching _ jump =>
    rw [Phrase.Given, lowerValue_of_branching branching]
    exact gives_labelId_bind.mpr (gives_temp_bind.mpr (jump.bind rfl))
  | less _ _ left right =>
    rw [List.append_assoc]
    exact left.bind (right.bind (.emitted rfl))
  | and _ _ left right | or _ _ left right =>
    exact gives_labelId_bind.mpr (left.bind (.emitted right))
  | nonZero plain _ value =>
    rw [Phrase.Given, lowerJump_of_plain plain]
    exact value.bind (.emitted rfl)
  | moreValues _ _ first rest =>
    rw [Phrase.Given, List.map_cons, List.mapM_cons]
    exact first.bind (rest.followed rfl)
  | fillMore _ _ first rest => exact first.bind (.emitted rest)
  | pack _ fill =>
    rw [Phrase.Given, Emission.pack, List.length_map]
    exact gives_store_bind.mpr ⟨_, rfl, fill.followed rfl⟩
  | implicitStatic isStatic =>
    rw [Phrase.Given, target_of_static isStatic]
    exact rfl
  | implicitThis inInstance notStatic =>
    rw [Phrase.Given, target_of_instance inInstance notStatic]
    exact rfl
  | onThis isThis =>
    rw [Phrase.Given, target_of_isThis isThis]
    exact rfl
  | onClass named notVariable known =>
    rw [Phrase.Given, target_of_class named notVariable known]
    exact rfl
  | onValue notThis notClass _ inner =>
    rw [Phrase.Given, target_of_value notThis notClass]
    exact inner.followed rfl
  | unbound callee _ _ target args => exact given_call callee target args
  | bound callee noRest _ _ target args =>
    exact given_call callee target (by rwa [argumentSteps_bound noRest])
  | passed callee rest single isArray _ _ target args =>
    exact given_call callee target (by rwa [argumentSteps_passed rest single isArray])
  | packed callee rest notArray _ _ _ target args array =>
    refine given_call callee target ?_
    rw [argumentSteps_packed rest notArray, List.mapM_append]
    exact args.bind (.followed (.followed array rfl) rfl)
  | block _ body => exact body
  | ifThen _ _ jump thenBranch =>
    refine gives_labelId_bind.mpr (jump.bind (.emitted ?_))
    exact (thenBranch.joining _).bind (.emitted rfl)
  | ifElse _ _ _ jump thenBranch elseBranch =>
    refine gives_labelId_bind.mpr (jump.bind (.emitted ?_))
    exact (thenBranch.joining _).bind (.emitted (elseBranch.bind rfl))
  | whileLoop _ _ jump body =>
    exact gives_labelId_bind.mpr (.emitted (jump.bind (.emitted (body.bind (.emitted rfl)))))
  | evalCall isCall _ call =>
    rw [Phrase.Given, lowerStmt, lowerEval, isCall]
    refine call.bind ?_
    rw [standing]
    split <;> exact rfl
  | eval notCall _ value =>
    rw [Phrase.Given, lowerStmt, lowerEval]
    split
    · exact absurd ‹_› (notCall _ _ _ _)
    · rw [lowerValue, emission_stripped]
      exact value.followed rfl
  | assignField named found _ value =>
    rw [Phrase.Given, lowerStmt, lowerAssign, named]
    simp only [found]
    exact value.bind rfl
  | @assignVariable _ _ _ _ _ found _ _ _ _ named resolved notField _ value =>
    rw [Phrase.Given, lowerStmt, lowerAssign, named]
    simp only [resolved]
    cases found with
    | field binding => cases notField
    | param _ _ | loc _ => exact value.bind rfl
  | assignElement indexed _ _ _ array position value =>
    rw [Phrase.Given, lowerStmt, lowerAssign, indexed]
    exact array.bind (position.bind (value.bind rfl))
  | returnValue _ value => exact value.bind rfl
  | moreStmts _ _ first rest => exact first.bind rest

/-- The rules lower the value of an expression exactly as lowering does. -/
theorem lowers_value_iff {scope : Scope} {expr : Expr} {expected : Ty} {result : Operand}
    {before after : Counters} {code : List Instr} :
    Lowers scope (.value expr expected result) before code after ↔
      (scope.lowerValue expr expected).Gives before result code after :=
  ⟨Lowers.given, (scope.sound expr).value⟩

end JavaMinus
