/-
This file says once what lowering appends. A phrase is something that can be
lowered together with what is left behind: the value of an expression with the
operand that holds it, the jump an expression decides, the arguments of a call,
a statement. `Lowers scope phrase before code after` holds when lowering the
phrase from the counters `before` appends `code` and leaves the counters `after`.
It has one rule for every way in which a phrase can be lowered, and every
successful lowering is an instance of a rule. What holds of all lowered code is
then shown by induction over these rules, and nothing has to be taken apart
again.
-/

import Mathlib.Data.List.Forall2
import JavaMinus.Lowering.Class
import JavaMinus.Proofs.Names

namespace JavaMinus

/-! ### Steps that succeed -/

namespace Lower

variable {α β : Type}

/-- The step succeeds from some counters with a result, appends some code and leaves some
counters. -/
def Gives (step : Lower α) (before : Counters) (result : α) (code : List Instr)
    (after : Counters) : Prop :=
  step before = ⟨.ok result, after, code⟩

theorem gives_iff {step : Lower α} {before after : Counters} {result : α} {code : List Instr} :
    step.Gives before result code after ↔
      (step before).outcome = .ok result ∧ (step before).counters = after ∧
        (step before).code = code := by
  rw [Gives]
  cases step before
  simp only [Lowered.mk.injEq]

theorem gives_of_ok {step : Lower α} {before : Counters} {result : α}
    (ok : (step before).outcome = .ok result) :
    step.Gives before result (step before).code (step before).counters :=
  gives_iff.mpr ⟨ok, rfl, rfl⟩

theorem gives_pure {result final : α} {before after : Counters} {code : List Instr} :
    (pure result : Lower α).Gives before final code after ↔
      final = result ∧ code = [] ∧ after = before := by
  simp only [Gives, pure_apply, Lowered.mk.injEq, Except.ok.injEq, eq_comm, and_comm]

/-- A sequence succeeds when its parts do, and strings their code together. -/
theorem gives_bind {first : Lower α} {next : α → Lower β} {final : β} {before after : Counters}
    {code : List Instr} :
    (first >>= next).Gives before final code after ↔
      ∃ result firstCode middle restCode, first.Gives before result firstCode middle ∧
        code = firstCode ++ restCode ∧ (next result).Gives middle final restCode after := by
  constructor
  · intro gives
    rw [gives_iff, bind_outcome_eq_ok_iff] at gives
    obtain ⟨⟨result, firstOk, restOk⟩, rfl, rfl⟩ := gives
    rw [bind_of_ok firstOk]
    exact ⟨result, _, _, _, gives_of_ok firstOk, rfl, gives_of_ok restOk⟩
  · rintro ⟨result, firstCode, middle, restCode, firstGives, rfl, restGives⟩
    rw [Gives] at firstGives restGives ⊢
    rw [bind_apply, firstGives]
    simp only [restGives]

theorem gives_emit {instr : Instr} {final : Unit} {before after : Counters} {code : List Instr} :
    (emit instr).Gives before final code after ↔ code = [instr] ∧ after = before := by
  simp only [Gives, emit_apply, Lowered.mk.injEq, true_and, eq_comm, and_comm]

theorem gives_emit_bind {instr : Instr} {next : Unit → Lower β} {final : β}
    {before after : Counters} {code : List Instr} :
    (emit instr >>= next).Gives before final code after ↔
      ∃ restCode, code = instr :: restCode ∧ (next ()).Gives before final restCode after := by
  rw [gives_bind]
  constructor
  · rintro ⟨_, _, _, restCode, firstGives, rfl, restGives⟩
    obtain ⟨rfl, rfl⟩ := gives_emit.mp firstGives
    exact ⟨restCode, rfl, restGives⟩
  · rintro ⟨restCode, rfl, restGives⟩
    exact ⟨(), [instr], before, restCode, gives_emit.mpr ⟨rfl, rfl⟩, rfl, restGives⟩

theorem gives_fail {fault : Fault} {final : α} {before after : Counters} {code : List Instr} :
    (fail fault : Lower α).Gives before final code after ↔ False := by
  simp [Gives]

/-- Code with a jump behind it, unless it cannot be left at its end anyway. -/
def joined (target : Label) (code : List Instr) : List Instr :=
  if code.getLast?.any Instr.endsBlock then code else code ++ [.goto target]

theorem gives_joining {target : Label} {body : Lower Unit} {final : Unit}
    {before after : Counters} {code : List Instr} :
    (joining target body).Gives before final code after ↔
      ∃ bodyCode, body.Gives before () bodyCode after ∧ code = joined target bodyCode := by
  rw [Gives, joining]
  cases ran : body before with
  | mk outcome counters bodyCode =>
    simp only [Gives, ran]
    cases outcome with
    | error fault => simp
    | ok _ =>
      simp only [joined]
      split
      · simp only [Lowered.mk.injEq, true_and]
        constructor
        · rintro ⟨rfl, rfl⟩
          exact ⟨bodyCode, ⟨rfl, rfl⟩, (if_pos ‹_›).symm⟩
        · rintro ⟨other, ⟨rfl, rfl⟩, rfl⟩
          exact ⟨rfl, (if_pos ‹_›).symm⟩
      · simp only [Lowered.mk.injEq, true_and]
        constructor
        · rintro ⟨rfl, rfl⟩
          exact ⟨bodyCode, ⟨rfl, rfl⟩, (if_neg ‹_›).symm⟩
        · rintro ⟨other, ⟨rfl, rfl⟩, rfl⟩
          exact ⟨rfl, (if_neg ‹_›).symm⟩

end Lower

/-! ### Fresh names -/

/-- The temporary that is taken next. -/
def Scope.nextTemp (scope : Scope) (counters : Counters) : String :=
  tempName (scope.freeTemp counters.temps)

/-- The counters once it is taken. -/
def Scope.afterTemp (scope : Scope) (counters : Counters) : Counters :=
  { counters with temps := scope.freeTemp counters.temps + 1 }

/-- The counters once a number for labels is taken. -/
def Counters.afterLabel (counters : Counters) : Counters :=
  { counters with labels := counters.labels + 1 }

@[simp] theorem Scope.afterTemp_labels (scope : Scope) (counters : Counters) :
    (scope.afterTemp counters).labels = counters.labels := rfl

@[simp] theorem Counters.afterLabel_labels (counters : Counters) :
    counters.afterLabel.labels = counters.labels + 1 := rfl

@[simp] theorem Counters.afterLabel_temps (counters : Counters) :
    counters.afterLabel.temps = counters.temps := rfl

namespace Lower

variable {β : Type} {scope : Scope} {before after : Counters} {code : List Instr}

theorem gives_labelId_bind {next : Nat → Lower β} {final : β} :
    (labelId >>= next).Gives before final code after ↔
      (next before.labels).Gives before.afterLabel final code after := by
  rw [Gives, Gives, bind_apply, labelId_apply]
  rfl

theorem gives_temp_bind {next : String → Lower β} {final : β} :
    (temp scope >>= next).Gives before final code after ↔
      (next (scope.nextTemp before)).Gives (scope.afterTemp before) final code after := by
  rw [Gives, Gives, bind_apply, temp_apply]
  rfl

theorem gives_store {rhs : Instr} {ty : Ty} {final : Operand} :
    (store scope rhs ty).Gives before final code after ↔
      final = .var (scope.nextTemp before) ty ∧
        code = [.assign (scope.nextTemp before) rhs ty] ∧ after = scope.afterTemp before := by
  simp only [Gives, store_apply, Lowered.mk.injEq, Except.ok.injEq, Scope.nextTemp,
    Scope.afterTemp, eq_comm, and_comm]

theorem gives_store_bind {rhs : Instr} {ty : Ty} {next : Operand → Lower β} {final : β} :
    (store scope rhs ty >>= next).Gives before final code after ↔
      ∃ restCode, code = .assign (scope.nextTemp before) rhs ty :: restCode ∧
        (next (.var (scope.nextTemp before) ty)).Gives (scope.afterTemp before) final restCode
          after := by
  rw [gives_bind]
  constructor
  · rintro ⟨_, _, _, restCode, firstGives, rfl, restGives⟩
    obtain ⟨rfl, rfl, rfl⟩ := gives_store.mp firstGives
    exact ⟨restCode, rfl, restGives⟩
  · rintro ⟨restCode, rfl, restGives⟩
    exact ⟨_, _, _, restCode, gives_store.mpr ⟨rfl, rfl, rfl⟩, rfl, restGives⟩

end Lower

/-! ### Phrases -/

/-- What can be lowered, together with what lowering it leaves. -/
inductive Phrase
  /-- The value of an expression that is asked for at a type, held by an operand. -/
  | value (expr : Expr) (expected : Ty) (result : Operand)
  /-- The jump that an expression decides. -/
  | jump (expr : Expr) (onTrue onFalse : Label)
  /-- The values of expressions side by side, each asked for at a type. -/
  | values (items : List (Expr × Ty)) (results : List Operand)
  /-- The values of expressions, stored into an array from a position on. -/
  | fill (array : Operand) (element : Ty) (position : Nat) (items : List Expr)
  /-- A new array that holds the values of expressions. -/
  | pack (element : Ty) (items : List Expr) (result : Operand)
  /-- What a call is made on. -/
  | target (receiver : Option Expr) (method : String) (kind : CallKind) (result : CallTarget)
  /-- A call up to the instruction itself. -/
  | call (receiver : Option Expr) (method : String) (args : List Expr) (expected : Ty)
      (result : Call)
  | stmt (stmt : Stmt)
  | body (stmts : List Stmt)

/-- Expressions that are natural as jumps, and whose value is made from the jump. -/
def Expr.isBranching : Expr → Bool
  | .binary _ op _ _ => !op.isArithmetic
  | .not _ _ => true
  | _ => false

/-- Expressions that have a rule of their own as jumps. -/
def Expr.hasJump : Expr → Bool
  | .literal _ (.bool _) | .paren _ _ => true
  | expr => expr.isBranching

namespace Scope

/-- An argument with the type it is asked for if it has no parameter. -/
def bareItem (scope : Scope) (arg : Expr) : Expr × Ty :=
  (arg, if (scope.typeOf arg).isUnknown then .int else scope.typeOf arg)

/-- The arguments that have a parameter of their own, with the types of the parameters. -/
def fixedItems (callee : Signature) (args : List Expr) : List (Expr × Ty) :=
  (args.zip (callee.params.take callee.fixedArity)).map fun (arg, param) => (arg, param.ty)

/-- The constructor call that follows an allocation. -/
def constructorCall (object : Operand) : Call :=
  ⟨.constructor, .receiver object, "<init>", [], .void⟩

/-- The diamond that turns a jump into a word. -/
def diamond (number : Nat) (result : String) : List Instr :=
  [.label (.numbered "false_" number),
    .assign result (.value (.bool false)) .boolean,
    .goto (.numbered "end_" number),
    .label (.numbered "true_" number),
    .assign result (.value (.bool true)) .boolean,
    .label (.numbered "end_" number)]

/-- The instruction of a call whose value is not used. -/
def standing (call : Call) : Instr :=
  if call.returnType.isVoid then .call call else .discard (.call call)

end Scope

open Lower in
/-- Lowering a phrase from some counters appends some code and leaves some counters. -/
inductive Lowers (scope : Scope) : Phrase → Counters → List Instr → Counters → Prop
  -- Values that need no code.
  | int {pos value expected counters} :
      Lowers scope (.value (.literal pos (.int value)) expected (.int value)) counters [] counters
  | bool {pos value expected counters} :
      Lowers scope (.value (.literal pos (.bool value)) expected (.bool value)) counters [] counters
  | field {pos name binding expected counters}
      (found : scope.lookup? name = some (.field binding)) :
      Lowers scope (.value (.name pos name) expected (.field binding.name binding.ty)) counters []
        counters
  | var {pos name found expected counters} (resolved : scope.lookup? name = some found)
      (notField : found.isField = false) :
      Lowers scope (.value (.name pos name) expected (.var name found.ty)) counters [] counters
  | this {pos expected counters} :
      Lowers scope (.value (.this pos) expected (.this scope.table.classType)) counters [] counters
  -- Values that are computed into a temporary.
  | arith {pos op left right leftResult rightResult expected before middle after leftCode rightCode}
      (leftLowers : Lowers scope (.value left .int leftResult) before leftCode middle)
      (rightLowers : Lowers scope (.value right .int rightResult) middle rightCode after) :
      Lowers scope
        (.value (.binary pos (.arith op) left right) expected (.var (scope.nextTemp after) .int))
        before
        (leftCode ++ rightCode ++
          [.assign (scope.nextTemp after) (.arith op leftResult rightResult .int) .int])
        (scope.afterTemp after)
  | newObject {pos className expected counters} :
      Lowers scope
        (.value (.newObject pos className) expected
          (.var (scope.nextTemp counters) (.named className)))
        counters
        [.assign (scope.nextTemp counters) (.newObject className) (.named className),
          .call (Scope.constructorCall (.var (scope.nextTemp counters) (.named className)))]
        (scope.afterTemp counters)
  | newArray {pos size sizeResult expected before after sizeCode}
      (sizeLowers : Lowers scope (.value size .int sizeResult) before sizeCode after) :
      Lowers scope (.value (.newArray pos size) expected (.var (scope.nextTemp after) .intArray))
        before (sizeCode ++ [.assign (scope.nextTemp after) (.newArray sizeResult) .intArray])
        (scope.afterTemp after)
  | index {pos array position arrayResult positionResult expected before middle after arrayCode
        positionCode}
      (arrayLowers : Lowers scope (.value array .intArray arrayResult) before arrayCode middle)
      (positionLowers : Lowers scope (.value position .int positionResult) middle positionCode
        after) :
      Lowers scope (.value (.index pos array position) expected (.var (scope.nextTemp after) .int))
        before
        (arrayCode ++ positionCode ++
          [.assign (scope.nextTemp after) (.loadElement arrayResult positionResult) .int])
        (scope.afterTemp after)
  | length {pos array arrayResult expected before after arrayCode}
      (arrayLowers : Lowers scope (.value array .intArray arrayResult) before arrayCode after) :
      Lowers scope (.value (.length pos array) expected (.var (scope.nextTemp after) .int)) before
        (arrayCode ++ [.assign (scope.nextTemp after) (.arrayLength arrayResult) .int])
        (scope.afterTemp after)
  | callValue {pos receiver method args expected call before after callCode}
      (callLowers : Lowers scope (.call receiver method args expected call) before callCode after)
      (valued : (call.returnType.isVoid || call.returnType.isUnknown) = false) :
      Lowers scope
        (.value (.call pos receiver method args) expected
          (.var (scope.nextTemp after) call.returnType))
        before (callCode ++ [.assign (scope.nextTemp after) (.call call) call.returnType])
        (scope.afterTemp after)
  -- Other values.
  | arrayLiteral {pos elements expected result before after code}
      (packLowers : Lowers scope (.pack .int elements result) before code after) :
      Lowers scope (.value (.arrayLiteral pos elements) expected result) before code after
  | paren {pos inner expected result before after code}
      (innerLowers : Lowers scope (.value inner expected result) before code after) :
      Lowers scope (.value (.paren pos inner) expected result) before code after
  | materialize {expr expected before after jumpCode} (branching : expr.isBranching = true)
      (jumpLowers : Lowers scope
        (.jump expr (.numbered "true_" before.labels) (.numbered "false_" before.labels))
        (scope.afterTemp before.afterLabel) jumpCode after) :
      Lowers scope (.value expr expected (.var (scope.nextTemp before.afterLabel) .boolean)) before
        (jumpCode ++ Scope.diamond before.labels (scope.nextTemp before.afterLabel)) after
  -- Jumps.
  | decided {pos value onTrue onFalse counters} :
      Lowers scope (.jump (.literal pos (.bool value)) onTrue onFalse) counters
        [.goto (if value then onTrue else onFalse)] counters
  | less {pos left right leftResult rightResult onTrue onFalse before middle after leftCode
        rightCode}
      (leftLowers : Lowers scope (.value left .int leftResult) before leftCode middle)
      (rightLowers : Lowers scope (.value right .int rightResult) middle rightCode after) :
      Lowers scope (.jump (.binary pos .less left right) onTrue onFalse) before
        (leftCode ++ rightCode ++
          [.branch (.less leftResult rightResult) onTrue, .goto onFalse])
        after
  | and {pos left right onTrue onFalse before middle after leftCode rightCode}
      (leftLowers : Lowers scope (.jump left (.numbered "and_" before.labels) onFalse)
        before.afterLabel leftCode middle)
      (rightLowers : Lowers scope (.jump right onTrue onFalse) middle rightCode after) :
      Lowers scope (.jump (.binary pos .and left right) onTrue onFalse) before
        (leftCode ++ .label (.numbered "and_" before.labels) :: rightCode) after
  | or {pos left right onTrue onFalse before middle after leftCode rightCode}
      (leftLowers : Lowers scope (.jump left onTrue (.numbered "or_" before.labels))
        before.afterLabel leftCode middle)
      (rightLowers : Lowers scope (.jump right onTrue onFalse) middle rightCode after) :
      Lowers scope (.jump (.binary pos .or left right) onTrue onFalse) before
        (leftCode ++ .label (.numbered "or_" before.labels) :: rightCode) after
  | not {pos operand onTrue onFalse before after code}
      (operandLowers : Lowers scope (.jump operand onFalse onTrue) before code after) :
      Lowers scope (.jump (.not pos operand) onTrue onFalse) before code after
  | parenJump {pos inner onTrue onFalse before after code}
      (innerLowers : Lowers scope (.jump inner onTrue onFalse) before code after) :
      Lowers scope (.jump (.paren pos inner) onTrue onFalse) before code after
  | nonZero {expr result onTrue onFalse before after code} (plain : expr.hasJump = false)
      (valueLowers : Lowers scope (.value expr .boolean result) before code after) :
      Lowers scope (.jump expr onTrue onFalse) before
        (code ++ [.branch (.nonZero result) onTrue, .goto onFalse]) after
  -- Several values.
  | noValues {counters} : Lowers scope (.values [] []) counters [] counters
  | moreValues {expr expected result items results before middle after firstCode restCode}
      (firstLowers : Lowers scope (.value expr expected result) before firstCode middle)
      (restLowers : Lowers scope (.values items results) middle restCode after) :
      Lowers scope (.values ((expr, expected) :: items) (result :: results)) before
        (firstCode ++ restCode) after
  | filled {array element position counters} :
      Lowers scope (.fill array element position []) counters [] counters
  | fillMore {array element position expr items result before middle after firstCode restCode}
      (firstLowers : Lowers scope (.value expr element result) before firstCode middle)
      (restLowers : Lowers scope (.fill array element (position + 1) items) middle restCode after) :
      Lowers scope (.fill array element position (expr :: items)) before
        (firstCode ++
          .storeElement array (.int (Int32.ofNat position)) result :: restCode)
        after
  | pack {element items before after code}
      (fillLowers : Lowers scope
        (.fill (.var (scope.nextTemp before) (.arrayOf element.base)) element 0 items)
        (scope.afterTemp before) code after) :
      Lowers scope
        (.pack element items (.var (scope.nextTemp before) (.arrayOf element.base))) before
        (.assign (scope.nextTemp before) (.newArray (.int (Int32.ofNat items.length)))
          (.arrayOf element.base) :: code)
        after
  -- Calls.
  | implicitStatic {method counters}
      (isStatic : ((scope.table.method? method).map Signature.isStatic).getD
        scope.method.isStatic = true) :
      Lowers scope (.target none method .static (.ofClass scope.table.className)) counters []
        counters
  | implicitThis {method counters} (inInstance : scope.method.isStatic = false)
      (notStatic : ((scope.table.method? method).map Signature.isStatic).getD false = false) :
      Lowers scope (.target none method .virtual .this) counters [] counters
  | onThis {receiver method counters} (isThis : receiver.isThis = true) :
      Lowers scope (.target (some receiver) method .virtual .this) counters [] counters
  | onClass {receiver pos className method counters}
      (named : receiver.stripped = .name pos className)
      (notVariable : scope.lookup? className = none)
      (known : scope.table.isKnownClass className = true) :
      Lowers scope (.target (some receiver) method .static (.ofClass className)) counters []
        counters
  | onValue {receiver method result before after code} (notThis : receiver.isThis = false)
      (notClass : ∀ pos className, receiver.stripped = .name pos className →
        scope.lookup? className = none → scope.table.isKnownClass className = false)
      (receiverLowers : Lowers scope (.value receiver .unknown result) before code after) :
      Lowers scope (.target (some receiver) method .virtual (.receiver result)) before code after
  | unbound {receiver method args expected kind target results before middle after targetCode
        argsCode}
      (callee : scope.callee? receiver method = none)
      (targetLowers : Lowers scope (.target receiver method kind target) before targetCode middle)
      (argsLowers : Lowers scope (.values (args.map scope.bareItem) results) middle argsCode
        after) :
      Lowers scope (.call receiver method args expected ⟨kind, target, method, results, expected⟩)
        before (targetCode ++ argsCode) after
  | bound {receiver method args expected signature kind target results before middle after
        targetCode argsCode}
      (callee : scope.callee? receiver method = some signature)
      (noRest : signature.restParam? = none)
      (targetLowers : Lowers scope (.target receiver method kind target) before targetCode middle)
      (argsLowers : Lowers scope
        (.values (Scope.fixedItems signature args ++
          (args.drop signature.fixedArity).map scope.bareItem) results)
        middle argsCode after) :
      Lowers scope
        (.call receiver method args expected ⟨kind, target, method, results, signature.returnType⟩)
        before (targetCode ++ argsCode) after
  | passed {receiver method args expected signature param arg kind target results before middle
        after targetCode argsCode}
      (callee : scope.callee? receiver method = some signature)
      (rest : signature.restParam? = some param)
      (single : args.drop signature.fixedArity = [arg]) (isArray : scope.typeOf arg = param.ty)
      (targetLowers : Lowers scope (.target receiver method kind target) before targetCode middle)
      (argsLowers : Lowers scope
        (.values (Scope.fixedItems signature args ++ [(arg, param.ty)]) results)
        middle argsCode after) :
      Lowers scope
        (.call receiver method args expected ⟨kind, target, method, results, signature.returnType⟩)
        before (targetCode ++ argsCode) after
  | packed {receiver method args expected signature param kind target results array before middle
        filled after targetCode argsCode packCode}
      (callee : scope.callee? receiver method = some signature)
      (rest : signature.restParam? = some param)
      (notArray : ∀ arg, args.drop signature.fixedArity = [arg] → scope.typeOf arg ≠ param.ty)
      (targetLowers : Lowers scope (.target receiver method kind target) before targetCode middle)
      (argsLowers : Lowers scope (.values (Scope.fixedItems signature args) results) middle argsCode
        filled)
      (packLowers : Lowers scope
        (.pack (param.ty.element?.getD .int) (args.drop signature.fixedArity) array)
        filled packCode after) :
      Lowers scope
        (.call receiver method args expected
          ⟨kind, target, method, results ++ [array], signature.returnType⟩)
        before (targetCode ++ (argsCode ++ packCode)) after
  -- Statements.
  | block {pos body before after code} (bodyLowers : Lowers scope (.body body) before code after) :
      Lowers scope (.stmt (.block pos body)) before code after
  | ifThen {pos condition thenBranch before middle after jumpCode thenCode}
      (jumpLowers : Lowers scope
        (.jump condition (.numbered "then_" before.labels) (.numbered "else_" before.labels))
        before.afterLabel jumpCode middle)
      (thenLowers : Lowers scope (.stmt thenBranch) middle thenCode after) :
      Lowers scope (.stmt (.ifElse pos condition thenBranch none)) before
        (jumpCode ++ .label (.numbered "then_" before.labels) ::
          (joined (.numbered "endif_" before.labels) thenCode ++
            [.label (.numbered "else_" before.labels), .label (.numbered "endif_" before.labels)]))
        after
  | ifElse {pos condition thenBranch elseBranch before middle between after jumpCode thenCode
        elseCode}
      (jumpLowers : Lowers scope
        (.jump condition (.numbered "then_" before.labels) (.numbered "else_" before.labels))
        before.afterLabel jumpCode middle)
      (thenLowers : Lowers scope (.stmt thenBranch) middle thenCode between)
      (elseLowers : Lowers scope (.stmt elseBranch) between elseCode after) :
      Lowers scope (.stmt (.ifElse pos condition thenBranch (some elseBranch))) before
        (jumpCode ++ .label (.numbered "then_" before.labels) ::
          (joined (.numbered "endif_" before.labels) thenCode ++
            .label (.numbered "else_" before.labels) ::
              (elseCode ++ [.label (.numbered "endif_" before.labels)])))
        after
  | whileLoop {pos condition body before middle after jumpCode bodyCode}
      (jumpLowers : Lowers scope
        (.jump condition (.numbered "while_body_" before.labels)
          (.numbered "while_end_" before.labels))
        before.afterLabel jumpCode middle)
      (bodyLowers : Lowers scope (.stmt body) middle bodyCode after) :
      Lowers scope (.stmt (.whileLoop pos condition body)) before
        (.label (.numbered "while_cond_" before.labels) ::
          (jumpCode ++ .label (.numbered "while_body_" before.labels) ::
            (bodyCode ++ [.goto (.numbered "while_cond_" before.labels),
              .label (.numbered "while_end_" before.labels)])))
        after
  | evalCall {pos callPos expr receiver method args call before after code}
      (isCall : expr.stripped = .call callPos receiver method args)
      (callLowers : Lowers scope (.call receiver method args .void call) before code after) :
      Lowers scope (.stmt (.eval pos expr)) before (code ++ [Scope.standing call]) after
  | eval {pos expr result before after code}
      (notCall : ∀ callPos receiver method args, expr.stripped ≠ .call callPos receiver method args)
      (valueLowers : Lowers scope (.value expr .unknown result) before code after) :
      Lowers scope (.stmt (.eval pos expr)) before code after
  | assignField {pos target value namePos name binding result before after code}
      (named : target.stripped = .name namePos name)
      (found : scope.lookup? name = some (.field binding))
      (valueLowers : Lowers scope (.value value binding.ty result) before code after) :
      Lowers scope (.stmt (.assign pos target value)) before
        (code ++ [.putField (.this scope.table.classType) binding.name binding.ty result]) after
  | assignVariable {pos target value namePos name found result before after code}
      (named : target.stripped = .name namePos name)
      (resolved : scope.lookup? name = some found) (notField : found.isField = false)
      (valueLowers : Lowers scope (.value value found.ty result) before code after) :
      Lowers scope (.stmt (.assign pos target value)) before
        (code ++ [.assign name (scope.rightHandSide result) found.ty]) after
  | assignElement {pos target value indexPos array position arrayResult positionResult result before
        first second after arrayCode positionCode valueCode}
      (indexed : target.stripped = .index indexPos array position)
      (arrayLowers : Lowers scope (.value array .intArray arrayResult) before arrayCode first)
      (positionLowers : Lowers scope (.value position .int positionResult) first positionCode
        second)
      (valueLowers : Lowers scope (.value value .int result) second valueCode after) :
      Lowers scope (.stmt (.assign pos target value)) before
        (arrayCode ++ (positionCode ++ (valueCode ++
          [.storeElement arrayResult positionResult result])))
        after
  | returnNothing {pos counters} :
      Lowers scope (.stmt (.ret pos none)) counters [.ret none scope.method.returnType] counters
  | returnValue {pos expr result before after code}
      (valueLowers : Lowers scope (.value expr scope.method.returnType result) before code after) :
      Lowers scope (.stmt (.ret pos (some expr))) before
        (code ++ [.ret (some result) scope.method.returnType]) after
  | noStmts {counters} : Lowers scope (.body []) counters [] counters
  | moreStmts {stmt rest before middle after firstCode restCode}
      (firstLowers : Lowers scope (.stmt stmt) before firstCode middle)
      (restLowers : Lowers scope (.body rest) middle restCode after) :
      Lowers scope (.body (stmt :: rest)) before (firstCode ++ restCode) after

/-! ### Every successful lowering is an instance -/

namespace Scope

open Lower Emission

/-- Lowering the value or the jump of an expression is an instance of a rule. -/
structure Sound (scope : Scope) (expr : Expr) : Prop where
  value : ∀ {expected result before code after},
    (scope.lowerValue expr expected).Gives before result code after →
      Lowers scope (.value expr expected result) before code after
  jump : ∀ {onTrue onFalse before code after},
    (scope.lowerJump expr onTrue onFalse).Gives before () code after →
      Lowers scope (.jump expr onTrue onFalse) before code after

/-- For an expression that is natural as a value the jump follows from the value. -/
theorem Sound.ofValue {scope : Scope} {expr : Expr} {compute : Ty → Lower Operand}
    (natural : scope.emission expr = .ofValue compute) (plain : expr.hasJump = false)
    (value : ∀ {expected result before code after},
      (compute expected).Gives before result code after →
        Lowers scope (.value expr expected result) before code after) : scope.Sound expr where
  value gives := by
    rw [lowerValue, natural] at gives
    exact value gives
  jump gives := by
    rw [lowerJump, natural] at gives
    simp only [Emission.ofValue] at gives
    simp only [↓gives_emit_bind, gives_bind, gives_emit] at gives
    obtain ⟨result, code, after, _, valueGives, rfl, _, rfl, rfl, rfl⟩ := gives
    exact .nonZero plain (value valueGives)

/-- For an expression that is natural as a jump the value follows from the jump. -/
theorem Sound.ofJump {scope : Scope} {expr : Expr} {decide : Label → Label → Lower Unit}
    (natural : scope.emission expr = .ofJump scope decide) (branching : expr.isBranching = true)
    (jump : ∀ {onTrue onFalse before code after},
      (decide onTrue onFalse).Gives before () code after →
        Lowers scope (.jump expr onTrue onFalse) before code after) : scope.Sound expr where
  value gives := by
    rw [lowerValue, natural] at gives
    simp only [Emission.ofJump, Emission.materialize] at gives
    simp only [↓gives_labelId_bind, ↓gives_temp_bind, ↓gives_emit_bind, gives_bind, gives_pure]
      at gives
    obtain ⟨_, jumpCode, middle, _, jumpGives, rfl, _, rfl, _, rfl, _, rfl, _, rfl, _, rfl, _, rfl,
      rfl, rfl, rfl⟩ := gives
    exact .materialize branching (jump jumpGives)
  jump gives := by
    rw [lowerJump, natural] at gives
    exact jump gives

/-- Values that are lowered one after the other. -/
theorem lowers_values {scope : Scope} {items : List (Expr × Ty)}
    (sound : ∀ item ∈ items, scope.Sound item.1) {results : List Operand}
    {before after : Counters} {code : List Instr}
    (gives : (items.mapM fun item => scope.lowerValue item.1 item.2).Gives before results code
      after) :
    Lowers scope (.values items results) before code after := by
  induction items generalizing results before code with
  | nil =>
    obtain ⟨rfl, rfl, rfl⟩ := gives_pure.mp gives
    exact .noValues
  | cons item rest inductionHypothesis =>
    simp only [List.mapM_cons, gives_bind, gives_pure] at gives
    obtain ⟨result, firstCode, middle, _, firstGives, rfl, results, restCode, _, _, restGives, rfl,
      rfl, rfl, rfl⟩ := gives
    rw [List.append_nil]
    exact .moreValues ((sound item List.mem_cons_self).value firstGives)
      (inductionHypothesis (fun other member => sound other (List.mem_cons_of_mem _ member))
        restGives)

/-- Values that are stored into an array. -/
theorem lowers_fill {scope : Scope} {array : Operand} {element : Ty} {position : Nat}
    {items : List Expr} (sound : ∀ item ∈ items, scope.Sound item) {before after : Counters}
    {code : List Instr}
    (gives : (fill array element position (items.map scope.emission)).Gives before () code after) :
    Lowers scope (.fill array element position items) before code after := by
  induction items generalizing position before code with
  | nil =>
    obtain ⟨-, rfl, rfl⟩ := gives_pure.mp gives
    exact .filled
  | cons item rest inductionHypothesis =>
    simp only [List.map_cons, fill] at gives
    simp only [↓gives_emit_bind, gives_bind] at gives
    obtain ⟨result, firstCode, middle, _, firstGives, rfl, restCode, rfl, restGives⟩ := gives
    exact .fillMore ((sound item List.mem_cons_self).value firstGives)
      (inductionHypothesis (fun other member => sound other (List.mem_cons_of_mem _ member))
        restGives)

/-- Values that are packed into a new array. -/
theorem lowers_pack {scope : Scope} {element : Ty} {items : List Expr}
    (sound : ∀ item ∈ items, scope.Sound item) {result : Operand} {before after : Counters}
    {code : List Instr}
    (gives : (Emission.pack scope element (items.map scope.emission)).Gives before result code
      after) :
    Lowers scope (.pack element items result) before code after := by
  simp only [Emission.pack, List.length_map] at gives
  simp only [↓gives_store_bind, gives_bind, gives_pure] at gives
  obtain ⟨_, rfl, _, fillCode, _, _, fillGives, rfl, rfl, rfl, rfl⟩ := gives
  rw [List.append_nil]
  exact .pack (lowers_fill sound fillGives)

/-! ### Calls -/

theorem lowers_implicitTarget {scope : Scope} {method : String} {kind : CallKind}
    {target : CallTarget} {before after : Counters} {code : List Instr}
    (gives : (implicitTarget scope method).Gives before (kind, target) code after) :
    Lowers scope (.target none method kind target) before code after := by
  rw [implicitTarget] at gives
  cases declared : scope.table.method? method with
  | some callee =>
    simp only [declared] at gives
    split at gives
    · next isStatic =>
      obtain ⟨same, rfl, rfl⟩ := gives_pure.mp gives
      obtain ⟨rfl, rfl⟩ := Prod.mk.inj same
      exact .implicitStatic (by simpa [declared] using isStatic)
    · next notStatic =>
      split at gives
      · exact absurd gives (by simp [gives_fail])
      · next inInstance =>
        obtain ⟨same, rfl, rfl⟩ := gives_pure.mp gives
        obtain ⟨rfl, rfl⟩ := Prod.mk.inj same
        exact .implicitThis (by simpa using inInstance) (by simpa [declared] using notStatic)
  | none =>
    simp only [declared] at gives
    split at gives
    · next isStatic =>
      obtain ⟨same, rfl, rfl⟩ := gives_pure.mp gives
      obtain ⟨rfl, rfl⟩ := Prod.mk.inj same
      exact .implicitStatic (by simpa [declared] using isStatic)
    · next inInstance =>
      obtain ⟨same, rfl, rfl⟩ := gives_pure.mp gives
      obtain ⟨rfl, rfl⟩ := Prod.mk.inj same
      exact .implicitThis (by simpa using inInstance) (by simp [declared])

theorem lowers_explicitTarget {scope : Scope} {receiver : Expr} (sound : scope.Sound receiver)
    {method : String} {kind : CallKind} {target : CallTarget} {before after : Counters}
    {code : List Instr}
    (gives : (explicitTarget scope receiver (scope.emission receiver)).Gives before (kind, target)
      code after) :
    Lowers scope (.target (some receiver) method kind target) before code after := by
  have byValue (notThis : receiver.isThis = false)
      (notClass : ∀ pos className, receiver.stripped = .name pos className →
        scope.lookup? className = none → scope.table.isKnownClass className = false)
      (gives : (Emission.onValue (scope.emission receiver)).Gives before (kind, target) code
        after) :
      Lowers scope (.target (some receiver) method kind target) before code after := by
    simp only [Emission.onValue, gives_bind, gives_pure, Prod.mk.injEq] at gives
    obtain ⟨result, valueCode, _, _, valueGives, rfl, ⟨rfl, rfl⟩, rfl, rfl⟩ := gives
    rw [List.append_nil]
    exact .onValue notThis notClass (sound.value valueGives)
  rw [explicitTarget] at gives
  split at gives
  · next pos isThis =>
    obtain ⟨same, rfl, rfl⟩ := gives_pure.mp gives
    obtain ⟨rfl, rfl⟩ := Prod.mk.inj same
    exact .onThis (by rw [Expr.isThis, isThis])
  · next pos className named =>
    split at gives
    · next isClass =>
      rw [Bool.and_eq_true, Option.isNone_iff_eq_none] at isClass
      obtain ⟨same, rfl, rfl⟩ := gives_pure.mp gives
      obtain ⟨rfl, rfl⟩ := Prod.mk.inj same
      exact .onClass named isClass.1 isClass.2
    · next notClass =>
      refine byValue (by rw [Expr.isThis, named]) (fun otherPos other same free => ?_) gives
      rw [named, Expr.name.injEq] at same
      rw [← same.2] at free ⊢
      simpa [free] using notClass
  · next notThis notName =>
    refine byValue ?_ (fun pos className same _ => absurd same (notName pos className)) gives
    rw [Expr.isThis]
    split
    · exact absurd ‹_› (notThis _)
    · rfl

/-- Arguments without a parameter are values asked for at their own types. -/
theorem mapM_bare (scope : Scope) (args : List Expr) :
    (scope.arguments args).mapM Argument.bare =
      (args.map scope.bareItem).mapM fun item => scope.lowerValue item.1 item.2 := by
  rw [arguments_eq_map, List.mapM_map, List.mapM_map]
  rfl

/-- Arguments with a parameter are values asked for at the types of the parameters. -/
theorem mapM_fixed (scope : Scope) (callee : Signature) (args : List Expr) :
    (((scope.arguments args).zip (callee.params.take callee.fixedArity)).mapM fun (arg, param) =>
        arg.emission.value param.ty) =
      (fixedItems callee args).mapM fun item => scope.lowerValue item.1 item.2 := by
  rw [arguments_eq_map, fixedItems, List.mapM_map, List.zip_map_left, List.mapM_map]
  rfl

theorem mem_of_mem_fixedItems {callee : Signature} {args : List Expr} {item : Expr × Ty}
    (member : item ∈ fixedItems callee args) : item.1 ∈ args := by
  obtain ⟨⟨arg, param⟩, inZip, rfl⟩ := List.mem_map.mp member
  exact (List.of_mem_zip inZip).1

theorem mem_of_mem_bareItems {scope : Scope} {args : List Expr} {item : Expr × Ty}
    (member : item ∈ args.map scope.bareItem) : item.1 ∈ args := by
  obtain ⟨arg, inArgs, rfl⟩ := List.mem_map.mp member
  exact inArgs

theorem drop_arguments (scope : Scope) (args : List Expr) (count : Nat) :
    (scope.arguments args).drop count = scope.arguments (args.drop count) := by
  rw [arguments_eq_map, arguments_eq_map, List.map_drop]

theorem map_emission_arguments (scope : Scope) (args : List Expr) :
    (scope.arguments args).map Argument.emission = args.map scope.emission := by
  rw [arguments_eq_map, List.map_map]
  rfl

/-- The argument for a parameter that takes all trailing arguments is a single array, or it is
packed. -/
theorem lowers_restOperand {scope : Scope} {param : Binding} {trailing : List Expr}
    (sound : ∀ arg ∈ trailing, scope.Sound arg) {array : Operand} {before after : Counters}
    {code : List Instr}
    (gives : (restOperand scope param (scope.arguments trailing)).Gives before array code after) :
    (∃ arg, trailing = [arg] ∧ scope.typeOf arg = param.ty ∧
      (scope.lowerValue arg param.ty).Gives before array code after) ∨
    ((∀ arg, trailing = [arg] → scope.typeOf arg ≠ param.ty) ∧
      Lowers scope (.pack (param.ty.element?.getD .int) trailing array) before code after) := by
  unfold restOperand at gives
  rw [map_emission_arguments] at gives
  match trailing with
  | [] => exact .inr ⟨fun arg same => absurd same (by simp), lowers_pack sound gives⟩
  | [arg] =>
    simp only [arguments] at gives
    split at gives
    · next isArray => exact .inl ⟨arg, rfl, isArray, gives⟩
    · next notArray =>
      refine .inr ⟨fun other same => ?_, lowers_pack sound gives⟩
      rwa [← (List.cons.inj same).1]
  | _ :: _ :: _ => exact .inr ⟨fun arg same => absurd same (by simp), lowers_pack sound gives⟩

/-- A call up to the instruction itself, whatever it is made on. -/
theorem lowers_call {scope : Scope} {receiver : Option Expr} {method : String} {args : List Expr}
    (soundReceiver : ∀ expr, receiver = some expr → scope.Sound expr)
    (soundArgs : ∀ arg ∈ args, scope.Sound arg) {expected : Ty} {call : Call}
    {before after : Counters} {code : List Instr}
    (gives : (scope.invocation receiver method args expected).Gives before call code after) :
    Lowers scope (.call receiver method args expected call) before code after := by
  rw [invocation, invoke] at gives
  simp only [gives_bind, gives_pure] at gives
  obtain ⟨⟨kind, target⟩, targetCode, middle, _, targetGives, rfl, results, argsCode, _, _, argsGives,
    rfl, rfl, rfl, rfl⟩ := gives
  have targetLowers :
      Lowers scope (.target receiver method kind target) before targetCode middle := by
    cases receiver with
    | none => exact lowers_implicitTarget targetGives
    | some expr => exact lowers_explicitTarget (soundReceiver expr rfl) targetGives
  have soundDrop (count : Nat) : ∀ arg ∈ args.drop count, scope.Sound arg :=
    fun arg member => soundArgs arg (List.mem_of_mem_drop member)
  have soundFixed (callee : Signature) : ∀ item ∈ fixedItems callee args, scope.Sound item.1 :=
    fun item member => soundArgs item.1 (mem_of_mem_fixedItems member)
  rw [List.append_nil]
  cases bound : scope.callee? receiver method with
  | none =>
    rw [bound, operands, mapM_bare] at argsGives
    refine .unbound bound targetLowers (lowers_values (fun item member => ?_) argsGives)
    exact soundArgs item.1 (mem_of_mem_bareItems member)
  | some signature =>
    rw [bound, operands, mapM_fixed, drop_arguments] at argsGives
    cases rest : signature.restParam? with
    | none =>
      simp only [rest, mapM_bare] at argsGives
      refine .bound bound rest targetLowers (lowers_values (fun item member => ?_) ?_)
      · rcases List.mem_append.mp member with inFixed | inBare
        · exact soundFixed signature item inFixed
        · exact soundDrop _ item.1 (mem_of_mem_bareItems inBare)
      · rw [List.mapM_append]
        exact argsGives
    | some param =>
      simp only [rest, gives_bind, gives_pure] at argsGives
      obtain ⟨fixed, fixedCode, filled, _, fixedGives, rfl, array, restCode, _, _, restGives, rfl, rfl,
        rfl, rfl⟩ := argsGives
      rw [List.append_nil]
      rcases lowers_restOperand (soundDrop _) restGives with
        ⟨arg, single, isArray, valueGives⟩ | ⟨notArray, packLowers⟩
      · refine .passed bound rest single isArray targetLowers
          (lowers_values (fun item member => ?_) ?_)
        · rcases List.mem_append.mp member with inFixed | inLast
          · exact soundFixed signature item inFixed
          · rw [List.mem_singleton.mp inLast]
            exact soundDrop signature.fixedArity arg (by rw [single]; exact List.mem_cons_self)
        · simp only [List.mapM_append, List.mapM_cons, List.mapM_nil, gives_bind, gives_pure]
          exact ⟨fixed, fixedCode, filled, restCode, fixedGives, rfl, [array], restCode, _, [],
            ⟨array, restCode, _, [], valueGives, (List.append_nil _).symm, [], [], _, [],
              ⟨rfl, rfl, rfl⟩, rfl, rfl, rfl, rfl⟩, (List.append_nil _).symm, rfl, rfl, rfl⟩
      · exact .packed bound rest notArray targetLowers
          (lowers_values (soundFixed signature) fixedGives)
          packLowers

/-! ### All expressions and statements -/

theorem sound (scope : Scope) (expr : Expr) : scope.Sound expr := by
  induction expr with
  | literal pos value =>
    cases value with
    | int value =>
      refine .ofValue (by rw [emission]; rfl) rfl fun gives => ?_
      obtain ⟨rfl, rfl, rfl⟩ := gives_pure.mp gives
      exact .int
    | bool value =>
      constructor
      · intro expected result before code after gives
        rw [lowerValue, emission] at gives
        obtain ⟨rfl, rfl, rfl⟩ := gives_pure.mp gives
        exact .bool
      · intro onTrue onFalse before code after gives
        rw [lowerJump, emission] at gives
        obtain ⟨rfl, rfl⟩ := gives_emit.mp gives
        exact .decided
  | name pos text =>
    refine .ofValue (by rw [emission]; rfl) rfl fun gives => ?_
    split at gives
    · next binding found =>
      obtain ⟨rfl, rfl, rfl⟩ := gives_pure.mp gives
      exact .field found
    · next found notField resolved =>
      obtain ⟨rfl, rfl, rfl⟩ := gives_pure.mp gives
      refine .var resolved ?_
      cases found with
      | field binding => exact absurd rfl (notField binding)
      | param position binding => rfl
      | loc binding => rfl
    · exact absurd gives (by simp [gives_fail])
  | this pos =>
    refine .ofValue (by rw [emission]) rfl fun gives => ?_
    obtain ⟨rfl, rfl, rfl⟩ := gives_pure.mp gives
    exact .this
  | binary pos op left right soundLeft soundRight =>
    cases op with
    | arith op =>
      refine .ofValue (by rw [emission]; rfl) rfl fun gives => ?_
      simp only [gives_bind, gives_store] at gives
      obtain ⟨_, _, _, _, leftGives, rfl, _, _, _, _, rightGives, rfl, rfl, rfl, rfl⟩ := gives
      rw [← List.append_assoc]
      exact .arith (soundLeft.value leftGives) (soundRight.value rightGives)
    | less =>
      refine .ofJump (by rw [emission]; rfl) rfl fun gives => ?_
      simp only [↓gives_emit_bind, gives_bind, gives_emit] at gives
      obtain ⟨_, _, _, _, leftGives, rfl, _, _, _, _, rightGives, rfl, _, rfl, rfl, rfl⟩ := gives
      rw [← List.append_assoc]
      exact .less (soundLeft.value leftGives) (soundRight.value rightGives)
    | and =>
      refine .ofJump (by rw [emission]; rfl) rfl fun gives => ?_
      simp only [↓gives_labelId_bind, ↓gives_emit_bind, gives_bind] at gives
      obtain ⟨_, _, _, _, leftGives, rfl, _, rfl, rightGives⟩ := gives
      exact .and (soundLeft.jump leftGives) (soundRight.jump rightGives)
    | or =>
      refine .ofJump (by rw [emission]; rfl) rfl fun gives => ?_
      simp only [↓gives_labelId_bind, ↓gives_emit_bind, gives_bind] at gives
      obtain ⟨_, _, _, _, leftGives, rfl, _, rfl, rightGives⟩ := gives
      exact .or (soundLeft.jump leftGives) (soundRight.jump rightGives)
  | not pos operand soundOperand =>
    exact .ofJump (by rw [emission]; rfl) rfl fun gives => .not (soundOperand.jump gives)
  | call pos receiver method args soundReceiver soundArgs =>
    refine .ofValue (by rw [emission_call]; rfl) rfl fun gives => ?_
    simp only [gives_bind] at gives
    obtain ⟨call, _, _, _, callGives, rfl, restGives⟩ := gives
    split at restGives
    · exact absurd restGives (by simp [gives_fail])
    · next valued =>
      obtain ⟨rfl, rfl, rfl⟩ := gives_store.mp restGives
      exact .callValue (lowers_call soundReceiver soundArgs callGives) (by simpa using valued)
  | newObject pos className =>
    refine .ofValue (by rw [emission]; rfl) rfl fun gives => ?_
    simp only [↓gives_store_bind, ↓gives_emit_bind, gives_pure] at gives
    obtain ⟨_, rfl, _, rfl, rfl, rfl, rfl⟩ := gives
    exact .newObject
  | newArray pos size soundSize =>
    refine .ofValue (by rw [emission]; rfl) rfl fun gives => ?_
    simp only [gives_bind, gives_store] at gives
    obtain ⟨_, _, _, _, sizeGives, rfl, rfl, rfl, rfl⟩ := gives
    exact .newArray (soundSize.value sizeGives)
  | index pos array position soundArray soundPosition =>
    refine .ofValue (by rw [emission]; rfl) rfl fun gives => ?_
    simp only [gives_bind, gives_store] at gives
    obtain ⟨_, _, _, _, arrayGives, rfl, _, _, _, _, positionGives, rfl, rfl, rfl, rfl⟩ := gives
    rw [← List.append_assoc]
    exact .index (soundArray.value arrayGives) (soundPosition.value positionGives)
  | length pos array soundArray =>
    refine .ofValue (by rw [emission]; rfl) rfl fun gives => ?_
    simp only [gives_bind, gives_store] at gives
    obtain ⟨_, _, _, _, arrayGives, rfl, rfl, rfl, rfl⟩ := gives
    exact .length (soundArray.value arrayGives)
  | arrayLiteral pos elements soundElements =>
    refine .ofValue (by rw [emission]) rfl fun gives => ?_
    rw [map_emission_arguments] at gives
    exact .arrayLiteral (lowers_pack soundElements gives)
  | paren pos inner soundInner =>
    constructor
    · intro expected result before code after gives
      rw [lowerValue, emission] at gives
      exact .paren (soundInner.value gives)
    · intro onTrue onFalse before code after gives
      rw [lowerJump, emission] at gives
      exact .parenJump (soundInner.jump gives)

theorem lowers_assign {scope : Scope} {pos : Pos} {target value : Expr} {before after : Counters}
    {code : List Instr} (gives : (scope.lowerAssign target value).Gives before () code after) :
    Lowers scope (.stmt (.assign pos target value)) before code after := by
  rw [lowerAssign] at gives
  split at gives
  · next namePos name named =>
    split at gives
    · next binding found =>
      simp only [gives_bind, gives_emit] at gives
      obtain ⟨_, _, _, _, valueGives, rfl, rfl, rfl⟩ := gives
      exact .assignField named found ((scope.sound value).value valueGives)
    · next found notField resolved =>
      simp only [gives_bind, gives_emit] at gives
      obtain ⟨_, _, _, _, valueGives, rfl, rfl, rfl⟩ := gives
      refine .assignVariable named resolved ?_ ((scope.sound value).value valueGives)
      cases found with
      | field binding => exact absurd rfl (notField binding)
      | param position binding => rfl
      | loc binding => rfl
    · exact absurd gives (by simp [gives_fail])
  · next indexPos array position indexed =>
    simp only [gives_bind, gives_emit] at gives
    obtain ⟨_, _, _, _, arrayGives, rfl, _, _, _, _, positionGives, rfl, _, _, _, _, valueGives, rfl,
      rfl, rfl⟩ := gives
    exact .assignElement indexed ((scope.sound array).value arrayGives)
      ((scope.sound position).value positionGives) ((scope.sound value).value valueGives)
  · exact absurd gives (by simp [gives_fail])

theorem lowers_eval {scope : Scope} {pos : Pos} {expr : Expr} {before after : Counters}
    {code : List Instr} (gives : (scope.lowerEval expr).Gives before () code after) :
    Lowers scope (.stmt (.eval pos expr)) before code after := by
  rw [lowerEval] at gives
  split at gives
  · next callPos receiver method args isCall =>
    simp only [lowerCall, gives_bind] at gives
    obtain ⟨call, _, _, _, callGives, rfl, restGives⟩ := gives
    have callLowers := lowers_call (fun receiver _ => scope.sound receiver)
      (fun arg _ => scope.sound arg) callGives
    have standsFor : emit (Scope.standing call) =
        if call.returnType.isVoid then emit (.call call) else emit (.discard (.call call)) := by
      rw [Scope.standing, apply_ite emit]
    rw [← standsFor] at restGives
    obtain ⟨rfl, rfl⟩ := gives_emit.mp restGives
    exact .evalCall isCall callLowers
  · next notCall =>
    simp only [gives_bind, gives_pure] at gives
    obtain ⟨result, _, _, _, valueGives, rfl, -, rfl, rfl⟩ := gives
    rw [lowerValue, emission_stripped] at valueGives
    rw [List.append_nil]
    exact .eval notCall ((scope.sound expr).value valueGives)

theorem lowers_return {scope : Scope} {pos : Pos} {value : Option Expr} {before after : Counters}
    {code : List Instr} (gives : (scope.lowerReturn value).Gives before () code after) :
    Lowers scope (.stmt (.ret pos value)) before code after := by
  cases value with
  | none =>
    obtain ⟨rfl, rfl⟩ := gives_emit.mp gives
    exact .returnNothing
  | some expr =>
    simp only [lowerReturn, gives_bind, gives_emit] at gives
    obtain ⟨_, _, _, _, valueGives, rfl, rfl, rfl⟩ := gives
    exact .returnValue ((scope.sound expr).value valueGives)

/-- Statements one after the other, if each of them is an instance of a rule. -/
theorem lowers_body_of {scope : Scope} {body : List Stmt}
    (sound : ∀ stmt ∈ body, ∀ {before after code},
      (scope.lowerStmt stmt).Gives before () code after →
        Lowers scope (.stmt stmt) before code after)
    {before after : Counters} {code : List Instr}
    (gives : (scope.lowerBody body).Gives before () code after) :
    Lowers scope (.body body) before code after := by
  induction body generalizing before code with
  | nil =>
    rw [lowerBody] at gives
    obtain ⟨-, rfl, rfl⟩ := gives_pure.mp gives
    exact .noStmts
  | cons stmt rest inductionHypothesis =>
    rw [lowerBody] at gives
    simp only [gives_bind] at gives
    obtain ⟨_, _, _, _, firstGives, rfl, restGives⟩ := gives
    refine .moreStmts (sound stmt List.mem_cons_self firstGives) (inductionHypothesis ?_ restGives)
    exact fun inner member => sound inner (List.mem_cons_of_mem stmt member)

theorem lowers_stmt {scope : Scope} (stmt : Stmt) {before after : Counters} {code : List Instr}
    (gives : (scope.lowerStmt stmt).Gives before () code after) :
    Lowers scope (.stmt stmt) before code after := by
  induction stmt generalizing before code after with
  | block pos body inductionHypothesis =>
    rw [lowerStmt] at gives
    exact .block (lowers_body_of inductionHypothesis gives)
  | ifElse pos condition thenBranch elseBranch thenHypothesis elseHypothesis =>
    rw [lowerStmt] at gives
    simp only [↓gives_labelId_bind, ↓gives_emit_bind, gives_bind, gives_joining] at gives
    obtain ⟨_, _, _, _, jumpGives, rfl, _, rfl, _, _, _, _, ⟨_, thenGives, rfl⟩, rfl, _, rfl,
      restGives⟩ := gives
    have jumpLowers := (scope.sound condition).jump jumpGives
    cases elseBranch with
    | none =>
      obtain ⟨rfl, rfl⟩ := gives_emit.mp restGives
      exact .ifThen jumpLowers (thenHypothesis thenGives)
    | some other =>
      simp only [gives_bind, gives_emit] at restGives
      obtain ⟨_, _, _, _, elseGives, rfl, rfl, rfl⟩ := restGives
      exact .ifElse jumpLowers (thenHypothesis thenGives) (elseHypothesis other rfl elseGives)
  | whileLoop pos condition body inductionHypothesis =>
    rw [lowerStmt] at gives
    simp only [↓gives_labelId_bind, ↓gives_emit_bind, gives_bind, gives_emit] at gives
    obtain ⟨_, rfl, _, _, _, _, jumpGives, rfl, _, rfl, _, _, _, _, bodyGives, rfl, _, rfl, rfl,
      rfl⟩ := gives
    exact .whileLoop ((scope.sound condition).jump jumpGives) (inductionHypothesis bodyGives)
  | eval pos expr =>
    rw [lowerStmt] at gives
    exact lowers_eval gives
  | assign pos target value =>
    rw [lowerStmt] at gives
    exact lowers_assign gives
  | ret pos value =>
    rw [lowerStmt] at gives
    exact lowers_return gives

/-- Every body that is lowered successfully is lowered by the rules. -/
theorem lowers_body {scope : Scope} {body : List Stmt} {before after : Counters}
    {code : List Instr} (gives : (scope.lowerBody body).Gives before () code after) :
    Lowers scope (.body body) before code after :=
  lowers_body_of (fun stmt _ => lowers_stmt stmt) gives

/-! ### Methods and classes -/

/-- The code is that of a body, lowered by the rules from some counters. -/
def Compiles (scope : Scope) (body : List Stmt) (method : MethodCode) : Prop :=
  ∃ before code after, Lowers scope (.body body) before code after ∧
    method = scope.methodCode (scope.method.close code)

theorem compiles_of_lowerMethod {scope : Scope} {body : List Stmt} {before : Counters}
    {method : MethodCode} (lowered : (scope.lowerMethod body before).1 = .ok method) :
    scope.Compiles body method := by
  rw [lowerMethod] at lowered
  cases outcome : (scope.lowerBody body before).outcome with
  | error fault =>
    rw [outcome] at lowered
    cases lowered
  | ok result =>
    rw [outcome] at lowered
    exact ⟨before, _, _, lowers_body (gives_of_ok outcome), (Except.ok.inj lowered).symm⟩

theorem compiles_of_lowerMethods {decls : List (MethodDecl × Scope)} {before : Counters}
    {methods : List MethodCode} (lowered : (lowerMethods decls before).1 = .ok methods) :
    List.Forall₂ (fun decl method => decl.2.Compiles decl.1.body method) decls methods := by
  induction decls generalizing before methods with
  | nil =>
    obtain rfl := Except.ok.inj lowered
    exact .nil
  | cons decl rest inductionHypothesis =>
    rw [lowerMethods] at lowered
    cases first : (decl.2.lowerMethod decl.1.body before).1 with
    | error fault =>
      simp only [first] at lowered
      cases lowered
    | ok method =>
      simp only [first] at lowered
      cases others : (lowerMethods rest (decl.2.lowerMethod decl.1.body before).2).1 with
      | error fault =>
        rw [others] at lowered
        cases lowered
      | ok restMethods =>
        rw [others] at lowered
        obtain rfl := Except.ok.inj lowered
        exact .cons (compiles_of_lowerMethod first) (inductionHypothesis others)

end Scope

namespace ClassTable

theorem table_of_mem_pair {table : ClassTable} {decls : List MethodDecl}
    {signatures : List Signature} {paired : List (MethodDecl × Scope)}
    (same : table.pair decls signatures = .ok paired) {decl : MethodDecl × Scope}
    (member : decl ∈ paired) : decl.2.table = table := by
  induction decls generalizing signatures paired with
  | nil =>
    obtain rfl := Except.ok.inj same
    cases member
  | cons first rest inductionHypothesis =>
    cases signatures with
    | nil => cases same
    | cons signature signatures =>
      rw [pair] at same
      cases others : table.pair rest signatures with
      | error fault =>
        rw [others] at same
        cases same
      | ok restPaired =>
        rw [others] at same
        obtain rfl := Except.ok.inj same
        rcases List.mem_cons.mp member with rfl | inRest
        · rfl
        · exact inductionHypothesis others inRest

/-- The code of a class holds the code of each method of the program, in order. -/
theorem compiles_of_lower {table : ClassTable} {program : Program} {before : Counters}
    {code : ClassCode} (lowered : (table.lower program before).1 = .ok code) :
    code = table.classCode code.methods ∧ ∃ decls, table.scopes program = .ok decls ∧
      List.Forall₂ (fun decl method => decl.2.table = table ∧ decl.2.Compiles decl.1.body method)
        decls code.methods := by
  rw [lower] at lowered
  cases paired : table.scopes program with
  | error fault =>
    rw [paired] at lowered
    cases lowered
  | ok decls =>
    simp only [paired] at lowered
    cases methods : (Scope.lowerMethods decls before).1 with
    | error fault =>
      rw [methods] at lowered
      cases lowered
    | ok methodCodes =>
      rw [methods] at lowered
      obtain rfl := Except.ok.inj lowered
      refine ⟨rfl, decls, rfl, ?_⟩
      rw [List.forall₂_and_left]
      exact ⟨fun decl => table_of_mem_pair paired, Scope.compiles_of_lowerMethods methods⟩

/-- Every method of the code is that of a body. -/
theorem compiles_of_mem {table : ClassTable} {program : Program} {before : Counters}
    {code : ClassCode} (lowered : (table.lower program before).1 = .ok code) {method : MethodCode}
    (member : method ∈ code.methods) : ∃ scope body, Scope.Compiles scope body method := by
  obtain ⟨-, decls, -, compiled⟩ := compiles_of_lower lowered
  obtain ⟨sameLength, each⟩ := List.forall₂_iff_get.mp compiled
  obtain ⟨position, inRange, rfl⟩ := List.mem_iff_getElem.mp member
  exact ⟨_, _, (each position (sameLength ▸ inRange) inRange).2⟩

end ClassTable

end JavaMinus
