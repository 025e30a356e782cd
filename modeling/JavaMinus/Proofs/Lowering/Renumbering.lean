/-
This file shows that the code of a body does not depend on what was lowered before
it, apart from numbers. From any two counts, lowering a body fails with the same
fault or gives the same code up to a renumbering: a permutation of the numbers of
temporaries that leaves the variables of the method alone, and one of the numbers
of labels.

The counts do not differ by a fixed amount, since each run skips the temporaries
that variables are called by where it comes to them. But the temporary that one
run takes as its first, second or third corresponds to the one that the other run
takes in that place, and so do the labels. Two runs stay in step as long as this
holds for all that they can still take, up to where the first of them ends.
-/

import Mathlib.Data.Finite.Sum
import Mathlib.Logic.Equiv.Fintype
import Mathlib.Order.WellFounded
import JavaMinus.Proofs.Lowering.Counting

namespace JavaMinus

open Counters

/-! ### Numbers in names -/

/-- The number of the temporary that has this name. -/
def tempNumber? (name : String) : Option Nat :=
  let number := Nat.ofDigitChars 10 (name.toList.drop 1) 0
  if name = tempName number then some number else none

theorem toList_tempName (number : Nat) :
    (tempName number).toList = 't' :: Nat.toDigits 10 number := by
  rw [tempName, String.toList_append, toList_toString]
  rfl

@[simp] theorem tempNumber?_tempName (number : Nat) :
    tempNumber? (tempName number) = some number := by
  have digits : Nat.ofDigitChars 10 ((tempName number).toList.drop 1) 0 = number := by
    rw [toList_tempName, List.drop_one, List.tail_cons, Nat.ofDigitChars_ten_toDigits]
  rw [tempNumber?, digits]
  exact if_pos rfl

theorem eq_tempName_of_tempNumber? {name : String} {number : Nat}
    (isTemp : tempNumber? name = some number) : name = tempName number := by
  rw [tempNumber?] at isTemp
  split at isTemp
  · next same => rwa [Option.some.inj isTemp] at same
  · cases isTemp

namespace Label

/-- What stands before the number of a label. -/
def family (label : Label) : String :=
  String.ofList (label.name.toList.reverse.dropWhile Char.isDigit).reverse

/-- The label with another number, if it has one. -/
def renumbered (numbers : Nat → Nat) (label : Label) : Label :=
  if label.numeral = [] then label
  else numbered label.family (numbers (Nat.ofDigitChars 10 label.numeral.reverse 0))

theorem family_numbered {family : String} (number : Nat)
    (separated : family.toList.reverse.head?.all (fun char => !char.isDigit) = true) :
    (numbered family number).family = family := by
  have digits : ∀ char ∈ (Nat.toDigits 10 number).reverse, char.isDigit = true := by
    intro char member
    exact Nat.isDigit_of_mem_toDigits (by decide) (by decide) (List.mem_reverse.mp member)
  rw [Label.family, numbered, String.toList_append, List.reverse_append, toList_toString,
    List.dropWhile_append_of_pos digits]
  have stays : family.toList.reverse.dropWhile Char.isDigit = family.toList.reverse := by
    cases letters : family.toList.reverse with
    | nil => rfl
    | cons last rest =>
      rw [letters, List.head?_cons, Option.all_some, Bool.not_eq_true'] at separated
      rw [List.dropWhile_cons_of_neg (by simp [separated])]
  rw [stays, List.reverse_reverse, String.ofList_toList]

theorem renumbered_numbered (numbers : Nat → Nat) {family : String} (number : Nat)
    (separated : family.toList.reverse.head?.all (fun char => !char.isDigit) = true) :
    (numbered family number).renumbered numbers = numbered family (numbers number) := by
  have digits := numeral_numbered number separated
  have hasNumber : (numbered family number).numeral ≠ [] := by
    rw [digits]
    simp
  rw [renumbered, if_neg hasNumber, family_numbered number separated, digits, List.reverse_reverse,
    Nat.ofDigitChars_ten_toDigits]

end Label

/-! ### Renumbering code -/

/-- New numbers for temporaries and for labels. -/
structure Renumbering where
  temps : Equiv.Perm Nat
  labels : Equiv.Perm Nat

namespace Renumbering

variable (renumbering : Renumbering)

/-- The new name of a variable. Only temporaries get one. -/
def name (text : String) : String :=
  match tempNumber? text with
  | some number => tempName (renumbering.temps number)
  | none => text

def label (place : Label) : Label := place.renumbered renumbering.labels

def operand : Operand → Operand
  | .var text ty => .var (renumbering.name text) ty
  | other => other

def target : CallTarget → CallTarget
  | .receiver value => .receiver (renumbering.operand value)
  | other => other

def call (invocation : Call) : Call :=
  { invocation with
    target := renumbering.target invocation.target
    args := invocation.args.map renumbering.operand }

def condition : Condition → Condition
  | .less left right => .less (renumbering.operand left) (renumbering.operand right)
  | .nonZero value => .nonZero (renumbering.operand value)

/-- The instruction with new temporaries and labels. -/
def instr : Instr → Instr
  | .value read => .value (renumbering.operand read)
  | .arith op left right ty => .arith op (renumbering.operand left) (renumbering.operand right) ty
  | .assign dest rhs ty => .assign (renumbering.name dest) (instr rhs) ty
  | .newObject className => .newObject className
  | .newArray size => .newArray (renumbering.operand size)
  | .call invocation => .call (renumbering.call invocation)
  | .getField receiver field ty => .getField (renumbering.operand receiver) field ty
  | .putField receiver field ty stored =>
    .putField (renumbering.operand receiver) field ty (renumbering.operand stored)
  | .loadElement array position =>
    .loadElement (renumbering.operand array) (renumbering.operand position)
  | .storeElement array position stored =>
    .storeElement (renumbering.operand array) (renumbering.operand position)
      (renumbering.operand stored)
  | .arrayLength array => .arrayLength (renumbering.operand array)
  | .label place => .label (renumbering.label place)
  | .goto place => .goto (renumbering.label place)
  | .branch decision place =>
    .branch (renumbering.condition decision) (renumbering.label place)
  | .discard inner => .discard (instr inner)
  | .ret result ty => .ret (result.map renumbering.operand) ty

@[simp] theorem name_tempName (number : Nat) :
    renumbering.name (tempName number) = tempName (renumbering.temps number) := by
  rw [name, tempNumber?_tempName]

theorem name_of_not_temp {text : String} (notTemp : ∀ number, text ≠ tempName number) :
    renumbering.name text = text := by
  rw [name]
  cases isTemp : tempNumber? text with
  | none => rfl
  | some number => exact absurd (eq_tempName_of_tempNumber? isTemp) (notTemp number)

/-- Different variables keep different names. -/
theorem name_injective : Function.Injective renumbering.name := by
  intro first second same
  cases firstTemp : tempNumber? first with
  | none =>
    cases secondTemp : tempNumber? second with
    | none => simpa only [name, firstTemp, secondTemp] using same
    | some number =>
      simp only [name, firstTemp, secondTemp] at same
      rw [same, tempNumber?_tempName] at firstTemp
      cases firstTemp
  | some number =>
    cases secondTemp : tempNumber? second with
    | none =>
      simp only [name, firstTemp, secondTemp] at same
      rw [← same, tempNumber?_tempName] at secondTemp
      cases secondTemp
    | some other =>
      simp only [name, firstTemp, secondTemp] at same
      have numbers := renumbering.temps.injective (tempName_injective same)
      rw [eq_tempName_of_tempNumber? firstTemp, eq_tempName_of_tempNumber? secondTemp, numbers]

theorem label_numbered {family : String} (number : Nat)
    (separated : family.toList.reverse.head?.all (fun char => !char.isDigit) = true) :
    renumbering.label (.numbered family number) =
      .numbered family (renumbering.labels number) :=
  Label.renumbered_numbered renumbering.labels number separated

theorem endsBlock_instr (single : Instr) :
    (renumbering.instr single).endsBlock = single.endsBlock := by
  cases single <;> rfl

theorem isReturn_instr (single : Instr) :
    (renumbering.instr single).isReturn = single.isReturn := by
  cases single <;> rfl

/-- The variables of a method keep their names. -/
def Fixes (scope : Scope) : Prop := ∀ text ∈ scope.names, renumbering.name text = text

end Renumbering

/-! ### Numbers that are still to be taken -/

namespace Scope

/-- The temporaries that are taken from a count on, by the order in which they are taken. -/
def nthTemp (scope : Scope) (start : Nat) : Nat → Nat
  | 0 => scope.freeTemp start
  | position + 1 => scope.nthTemp (scope.freeTemp start + 1) position

variable (scope : Scope)

theorem lookup?_nthTemp (start position : Nat) :
    scope.lookup? (tempName (scope.nthTemp start position)) = none := by
  induction position generalizing start with
  | zero => exact scope.lookup?_freeTemp start
  | succ position inductionHypothesis => exact inductionHypothesis _

theorem nthTemp_strictMono (start : Nat) : StrictMono (scope.nthTemp start) := by
  refine strictMono_nat_of_lt_succ fun position => ?_
  induction position generalizing start with
  | zero => exact scope.le_freeTemp (scope.freeTemp start + 1)
  | succ position inductionHypothesis => exact inductionHypothesis _

/-- What one run can still take up to a bound corresponds to what the other run takes in its
place. -/
structure Synced (renumbering : Renumbering) (bound first second : Counters) : Prop where
  temps : ∀ position, scope.nthTemp first.temps position < bound.temps →
    renumbering.temps (scope.nthTemp first.temps position) = scope.nthTemp second.temps position
  labels : ∀ position, first.labels + position < bound.labels →
    renumbering.labels (first.labels + position) = second.labels + position

end Scope

/-! ### Steps -/

/-- The second run ended as the first one did with other numbers: with the same fault or the image
of the result, the same code up to the numbers, and in step. -/
structure Lowered.Mirrors (scope : Scope) (renumbering : Renumbering) (bound : Counters)
    {α : Type} (image : α → α) (left right : Lowered α) : Prop where
  outcome : right.outcome = left.outcome.map image
  code : right.code = left.code.map renumbering.instr
  synced : scope.Synced renumbering bound left.counters right.counters

namespace Lower

/-- The second step does what the first one does with other numbers, from wherever they are in
step, as long as the first one stays within the bound. -/
structure Mirrors (scope : Scope) (renumbering : Renumbering) (bound : Counters) {α : Type}
    (image : α → α) (left right : Lower α) : Prop where
  advances : left.Advances
  runs : ∀ {first second}, scope.Synced renumbering bound first second →
    Grows (left first).counters bound →
      (left first).Mirrors scope renumbering bound image (right second)

variable {α β : Type} {scope : Scope} {renumbering : Renumbering} {bound : Counters}

theorem mirrors_pure {image : α → α} {result mirrored : α} (same : image result = mirrored) :
    Mirrors scope renumbering bound image (pure result) (pure mirrored) :=
  ⟨advances_pure result, fun synced _ => ⟨congrArg Except.ok same.symm, rfl, synced⟩⟩

theorem mirrors_emit (instr : Instr) :
    Mirrors scope renumbering bound id (emit instr) (emit (renumbering.instr instr)) :=
  ⟨advances_emit instr, fun synced _ => ⟨rfl, rfl, synced⟩⟩

theorem mirrors_fail (image : α → α) (fault : Fault) :
    Mirrors scope renumbering bound image (fail fault) (fail fault) :=
  ⟨advances_fail fault, fun synced _ => ⟨rfl, rfl, synced⟩⟩

theorem mirrors_labelId :
    Mirrors scope renumbering bound renumbering.labels labelId labelId := by
  refine ⟨advances_labelId, fun {first second} synced within => ⟨?_, rfl, synced.temps, ?_⟩⟩
  · exact congrArg Except.ok (synced.labels 0 within.labels).symm
  · intro position below
    have next := synced.labels (position + 1)
    rw [Nat.add_comm position 1, ← Nat.add_assoc, ← Nat.add_assoc] at next
    exact next below

theorem mirrors_temp :
    Mirrors scope renumbering bound renumbering.name (temp scope) (temp scope) := by
  refine ⟨advances_temp scope, fun {first second} synced within => ⟨?_, rfl, ?_, synced.labels⟩⟩
  · have taken : renumbering.temps (scope.freeTemp first.temps) = scope.freeTemp second.temps :=
      synced.temps 0 within.temps
    rw [temp_apply, temp_apply, ← taken, ← renumbering.name_tempName]
    rfl
  · exact fun position below => synced.temps (position + 1) below

/-- A sequence goes on with the result in the one run and with its image in the other. -/
theorem Mirrors.bind {image : α → α} {other : β → β} {left right : Lower α}
    {next following : α → Lower β} (start : Mirrors scope renumbering bound image left right)
    (rest : ∀ result,
      Mirrors scope renumbering bound other (next result) (following (image result))) :
    Mirrors scope renumbering bound other (left >>= next) (right >>= following) := by
  refine ⟨start.advances.bind fun result => (rest result).advances, ?_⟩
  intro first second synced within
  cases outcome : (left first).outcome with
  | error fault =>
    rw [bind_of_error outcome] at within ⊢
    have begun := start.runs synced within
    have failed := begun.outcome
    rw [outcome] at failed
    rw [bind_of_error failed]
    exact ⟨rfl, begun.code, begun.synced⟩
  | ok result =>
    rw [bind_of_ok outcome] at within ⊢
    -- What the rest takes lies behind, so the start stays within the bound, too.
    have begun := start.runs synced (((rest result).advances _).trans within)
    have succeeded := begun.outcome
    rw [outcome] at succeeded
    have ended := (rest result).runs begun.synced within
    rw [bind_of_ok succeeded, begun.code, ended.code, ← List.map_append]
    exact ⟨ended.outcome, rfl, ended.synced⟩

theorem mirrors_store (rhs : Instr) (ty : Ty) :
    Mirrors scope renumbering bound renumbering.operand (store scope rhs ty)
      (store scope (renumbering.instr rhs) ty) :=
  mirrors_temp.bind fun name => (mirrors_emit (.assign name rhs ty)).bind fun _ =>
    mirrors_pure rfl

theorem mirrors_label (family : String) (number : Nat)
    (separated : family.toList.reverse.head?.all (fun char => !char.isDigit) = true) :
    Mirrors scope renumbering bound id (emit (.label (.numbered family number)))
      (emit (.label (.numbered family (renumbering.labels number)))) := by
  rw [← renumbering.label_numbered number separated]
  exact mirrors_emit (.label (.numbered family number))

theorem mirrors_goto (family : String) (number : Nat)
    (separated : family.toList.reverse.head?.all (fun char => !char.isDigit) = true) :
    Mirrors scope renumbering bound id (emit (.goto (.numbered family number)))
      (emit (.goto (.numbered family (renumbering.labels number)))) := by
  rw [← renumbering.label_numbered number separated]
  exact mirrors_emit (.goto (.numbered family number))

theorem Mirrors.joining {left right : Lower Unit}
    (body : Mirrors scope renumbering bound id left right) (place : Label) :
    Mirrors scope renumbering bound id (joining place left)
      (joining (renumbering.label place) right) := by
  refine ⟨body.advances.joining place, ?_⟩
  intro first second synced within
  have counters : (Lower.joining place left first).counters = (left first).counters := by
    rw [Lower.joining]
    cases (left first).outcome with
    | error fault => rfl
    | ok result =>
      simp only
      split <;> rfl
  rw [counters] at within
  have ended := body.runs synced within
  rw [Lower.joining, Lower.joining]
  cases outcome : (left first).outcome with
  | error fault =>
    have failed := ended.outcome
    rw [outcome] at failed
    rw [failed]
    exact ended
  | ok result =>
    have succeeded := ended.outcome
    rw [outcome] at succeeded
    have closed : (right second).code.getLast?.any Instr.endsBlock =
        (left first).code.getLast?.any Instr.endsBlock := by
      rw [ended.code, List.getLast?_map, Option.any_map]
      exact congrArg (fun test => Option.any test _) (funext renumbering.endsBlock_instr)
    rw [succeeded]
    simp only [closed]
    split
    · exact ended
    · refine ⟨rfl, ?_, ended.synced⟩
      show (right second).code ++ _ = List.map _ ((left first).code ++ _)
      rw [ended.code, List.map_append]
      rfl

theorem mirrors_mapM (image : β → β) {items : List α} {step : α → Lower β}
    (each : ∀ item ∈ items, Mirrors scope renumbering bound image (step item) (step item)) :
    Mirrors scope renumbering bound (List.map image) (items.mapM step) (items.mapM step) := by
  induction items with
  | nil => exact mirrors_pure rfl
  | cons item rest inductionHypothesis =>
    obtain ⟨first, others⟩ := List.forall_mem_cons.mp each
    rw [List.mapM_cons]
    exact first.bind fun result => (inductionHypothesis others).bind fun results =>
      mirrors_pure rfl

end Lower

open Lower

/-! ### Expressions -/

namespace Emission

/-- Both ways to lower the expression mirror themselves. -/
structure Mirrors (scope : Scope) (renumbering : Renumbering) (bound : Counters)
    (emission : Emission) : Prop where
  value : ∀ expected, Lower.Mirrors scope renumbering bound renumbering.operand
    (emission.value expected) (emission.value expected)
  jump : ∀ onTrue onFalse, Lower.Mirrors scope renumbering bound id
    (emission.jump onTrue onFalse)
    (emission.jump (renumbering.label onTrue) (renumbering.label onFalse))

variable {scope : Scope} {renumbering : Renumbering} {bound : Counters}

theorem mirrors_ofValue {value : Ty → Lower Operand}
    (mirrors : ∀ expected, Lower.Mirrors scope renumbering bound renumbering.operand
      (value expected) (value expected)) :
    (ofValue value).Mirrors scope renumbering bound where
  value := mirrors
  jump onTrue onFalse := (mirrors .boolean).bind fun operand =>
    (mirrors_emit (.branch (.nonZero operand) onTrue)).bind fun _ => mirrors_emit (.goto onFalse)

theorem mirrors_ofJump {jump : Label → Label → Lower Unit}
    (mirrors : ∀ onTrue onFalse, Lower.Mirrors scope renumbering bound id (jump onTrue onFalse)
      (jump (renumbering.label onTrue) (renumbering.label onFalse))) :
    (ofJump scope jump).Mirrors scope renumbering bound where
  value _ := by
    refine mirrors_labelId.bind fun number => mirrors_temp.bind fun result => ?_
    have decides := mirrors (.numbered "true_" number) (.numbered "false_" number)
    rw [renumbering.label_numbered number (by decide),
      renumbering.label_numbered number (by decide)] at decides
    refine decides.bind fun _ => (mirrors_label "false_" number (by decide)).bind fun _ => ?_
    refine (mirrors_emit (.assign result (.value (.bool false)) .boolean)).bind fun _ => ?_
    refine (mirrors_goto "end_" number (by decide)).bind fun _ => ?_
    refine (mirrors_label "true_" number (by decide)).bind fun _ => ?_
    refine (mirrors_emit (.assign result (.value (.bool true)) .boolean)).bind fun _ => ?_
    refine (mirrors_label "end_" number (by decide)).bind fun _ => ?_
    exact mirrors_pure rfl
  jump := mirrors

theorem mirrors_literal (value : Literal) :
    (literal value).Mirrors scope renumbering bound := by
  cases value with
  | int value => exact mirrors_ofValue fun _ => mirrors_pure rfl
  | bool value =>
    refine ⟨fun _ => mirrors_pure rfl, fun onTrue onFalse => ?_⟩
    cases value with
    | true => exact mirrors_emit (.goto onTrue)
    | false => exact mirrors_emit (.goto onFalse)

theorem mirrors_name (fixes : renumbering.Fixes scope) (pos : Pos) (text : String) :
    (Emission.name scope pos text).Mirrors scope renumbering bound := by
  refine mirrors_ofValue fun _ => ?_
  cases resolved : scope.lookup? text with
  | none => exact mirrors_fail renumbering.operand _
  | some found =>
    have kept : renumbering.name text = text :=
      fixes text ((scope.lookup?_isSome_iff text).mp (Option.isSome_of_eq_some resolved))
    cases found with
    | field binding => exact mirrors_pure rfl
    | param | loc => exact mirrors_pure (by rw [Renumbering.operand, kept])

theorem mirrors_binary {left right : Emission} (op : BinaryOp)
    (first : left.Mirrors scope renumbering bound)
    (second : right.Mirrors scope renumbering bound) :
    (binary scope op left right).Mirrors scope renumbering bound := by
  cases op with
  | arith op =>
    exact mirrors_ofValue fun _ => (first.value _).bind fun leftOperand =>
      (second.value _).bind fun rightOperand =>
        mirrors_store (.arith op leftOperand rightOperand .int) .int
  | less =>
    exact mirrors_ofJump fun onTrue onFalse => (first.value _).bind fun leftOperand =>
      (second.value _).bind fun rightOperand =>
        (mirrors_emit (.branch (.less leftOperand rightOperand) onTrue)).bind fun _ =>
          mirrors_emit (.goto onFalse)
  | and =>
    refine mirrors_ofJump fun onTrue onFalse => mirrors_labelId.bind fun number => ?_
    have decides := first.jump (.numbered "and_" number) onFalse
    rw [renumbering.label_numbered number (by decide)] at decides
    exact decides.bind fun _ => (mirrors_label "and_" number (by decide)).bind fun _ =>
      second.jump onTrue onFalse
  | or =>
    refine mirrors_ofJump fun onTrue onFalse => mirrors_labelId.bind fun number => ?_
    have decides := first.jump onTrue (.numbered "or_" number)
    rw [renumbering.label_numbered number (by decide)] at decides
    exact decides.bind fun _ => (mirrors_label "or_" number (by decide)).bind fun _ =>
      second.jump onTrue onFalse

theorem mirrors_newObject (className : String) :
    (newObject scope className).Mirrors scope renumbering bound :=
  mirrors_ofValue fun _ => (mirrors_store (.newObject className) (.named className)).bind
    fun object =>
      (mirrors_emit (.call ⟨.constructor, .receiver object, "<init>", [], .void⟩)).bind fun _ =>
        mirrors_pure rfl

theorem mirrors_fill {items : List Emission}
    (mirrors : ∀ item ∈ items, item.Mirrors scope renumbering bound) (array : Operand)
    (element : Ty) (position : Nat) :
    Lower.Mirrors scope renumbering bound id (fill array element position items)
      (fill (renumbering.operand array) element position items) := by
  induction items generalizing position with
  | nil => exact mirrors_pure rfl
  | cons item rest inductionHypothesis =>
    obtain ⟨first, others⟩ := List.forall_mem_cons.mp mirrors
    exact (first.value element).bind fun operand =>
      (mirrors_emit (.storeElement array (.int (Int32.ofNat position)) operand)).bind fun _ =>
        inductionHypothesis others (position + 1)

theorem mirrors_pack {items : List Emission}
    (mirrors : ∀ item ∈ items, item.Mirrors scope renumbering bound) (element : Ty) :
    Lower.Mirrors scope renumbering bound renumbering.operand (pack scope element items)
      (pack scope element items) :=
  (mirrors_store (.newArray (.int (Int32.ofNat items.length))) (.arrayOf element.base)).bind
    fun array => (mirrors_fill mirrors array element 0).bind fun _ =>
      mirrors_pure rfl

/-! ### Calls -/

theorem mirrors_implicitTarget (method : String) :
    Lower.Mirrors scope renumbering bound (Prod.map id renumbering.target)
      (implicitTarget scope method) (implicitTarget scope method) := by
  rw [implicitTarget]
  split
  · split
    · exact mirrors_pure rfl
    · split
      · exact mirrors_fail _ _
      · exact mirrors_pure rfl
  · split <;> exact mirrors_pure rfl

theorem mirrors_explicitTarget (receiver : Expr) {emission : Emission}
    (mirrors : emission.Mirrors scope renumbering bound) :
    Lower.Mirrors scope renumbering bound (Prod.map id renumbering.target)
      (explicitTarget scope receiver emission) (explicitTarget scope receiver emission) := by
  have byValue : Lower.Mirrors scope renumbering bound (Prod.map id renumbering.target)
      (onValue emission) (onValue emission) :=
    (mirrors.value .unknown).bind fun _ => mirrors_pure rfl
  rw [explicitTarget]
  split
  · exact mirrors_pure rfl
  · split
    · exact mirrors_pure rfl
    · exact byValue
  · exact byValue

theorem mirrors_restOperand {trailing : List Argument}
    (mirrors : ∀ arg ∈ trailing, arg.emission.Mirrors scope renumbering bound)
    (param : Binding) :
    Lower.Mirrors scope renumbering bound renumbering.operand (restOperand scope param trailing)
      (restOperand scope param trailing) := by
  have packed := mirrors_pack (List.forall_mem_map.mpr mirrors) (param.ty.element?.getD .int)
  rw [restOperand.eq_def]
  split
  · split
    · exact (List.forall_mem_singleton.mp mirrors).value _
    · exact packed
  · exact packed

theorem mirrors_operands {args : List Argument}
    (mirrors : ∀ arg ∈ args, arg.emission.Mirrors scope renumbering bound)
    (callee : Option Signature) :
    Lower.Mirrors scope renumbering bound (List.map renumbering.operand)
      (operands scope callee args) (operands scope callee args) := by
  have bare : ∀ count, Lower.Mirrors scope renumbering bound (List.map renumbering.operand)
      ((args.drop count).mapM Argument.bare) ((args.drop count).mapM Argument.bare) :=
    fun count => mirrors_mapM renumbering.operand fun arg member =>
      (mirrors arg (List.mem_of_mem_drop member)).value _
  cases callee with
  | none => exact bare 0
  | some signature =>
    rw [operands]
    refine (mirrors_mapM renumbering.operand fun item member => ?_).bind fun fixed => ?_
    · exact (mirrors item.1 (List.of_mem_zip member).1).value _
    · split
      · next param _ =>
        have trailing : ∀ arg ∈ args.drop signature.fixedArity,
            arg.emission.Mirrors scope renumbering bound :=
          fun arg member => mirrors arg (List.mem_of_mem_drop member)
        exact (mirrors_restOperand trailing param).bind fun _ => mirrors_pure List.map_append
      · exact (bare signature.fixedArity).bind fun _ => mirrors_pure List.map_append

theorem mirrors_invoke {target : Lower (CallKind × CallTarget)}
    (onTarget : Lower.Mirrors scope renumbering bound (Prod.map id renumbering.target)
      target target) {args : List Argument}
    (mirrors : ∀ arg ∈ args, arg.emission.Mirrors scope renumbering bound)
    (callee : Option Signature) (method : String) (expected : Ty) :
    Lower.Mirrors scope renumbering bound renumbering.call
      (invoke scope target callee method args expected)
      (invoke scope target callee method args expected) := by
  rw [invoke]
  exact onTarget.bind fun _ => (mirrors_operands mirrors callee).bind fun _ => mirrors_pure rfl

theorem mirrors_callValue {invocation : Ty → Lower Call}
    (mirrors : ∀ expected, Lower.Mirrors scope renumbering bound renumbering.call
      (invocation expected) (invocation expected)) :
    (callValue scope invocation).Mirrors scope renumbering bound := by
  refine mirrors_ofValue fun expected => (mirrors expected).bind fun call => ?_
  show Lower.Mirrors scope renumbering bound renumbering.operand _
    (if call.returnType.isVoid || call.returnType.isUnknown then _ else _)
  split
  · exact mirrors_fail _ _
  · exact mirrors_store (.call call) call.returnType

end Emission

namespace Scope

open Emission

variable {scope : Scope} {renumbering : Renumbering} {bound : Counters}

theorem mirrors_invocation {receiver : Option Expr} {args : List Expr}
    (mirrorsReceiver : ∀ expr, receiver = some expr →
      (scope.emission expr).Mirrors scope renumbering bound)
    (mirrorsArgs : ∀ arg ∈ args, (scope.emission arg).Mirrors scope renumbering bound)
    (method : String) (expected : Ty) :
    Lower.Mirrors scope renumbering bound renumbering.call
      (scope.invocation receiver method args expected)
      (scope.invocation receiver method args expected) := by
  have target : Lower.Mirrors scope renumbering bound (Prod.map id renumbering.target)
      (scope.target receiver method) (scope.target receiver method) := by
    cases receiver with
    | none => exact mirrors_implicitTarget method
    | some expr => exact mirrors_explicitTarget expr (mirrorsReceiver expr rfl)
  have arguments : ∀ arg ∈ scope.arguments args,
      arg.emission.Mirrors scope renumbering bound := by
    rw [arguments_eq_map, List.forall_mem_map]
    exact mirrorsArgs
  exact mirrors_invoke target arguments (scope.callee? receiver method) method expected

theorem mirrors_emission (fixes : renumbering.Fixes scope) (expr : Expr) :
    (scope.emission expr).Mirrors scope renumbering bound := by
  induction expr with
  | literal pos value =>
    rw [emission]
    exact mirrors_literal value
  | name pos text =>
    rw [emission]
    exact mirrors_name fixes pos text
  | this pos =>
    rw [emission]
    exact mirrors_ofValue fun _ => mirrors_pure rfl
  | binary pos op left right mirrorsLeft mirrorsRight =>
    rw [emission]
    exact mirrors_binary op mirrorsLeft mirrorsRight
  | not pos operand mirrorsOperand =>
    rw [emission]
    exact mirrors_ofJump fun onTrue onFalse => mirrorsOperand.jump onFalse onTrue
  | call pos receiver method args mirrorsReceiver mirrorsArgs =>
    rw [emission_call]
    exact mirrors_callValue (mirrors_invocation mirrorsReceiver mirrorsArgs method)
  | newObject pos className =>
    rw [emission]
    exact mirrors_newObject className
  | newArray pos size mirrorsSize =>
    rw [emission]
    exact mirrors_ofValue fun _ => (mirrorsSize.value _).bind fun operand =>
      mirrors_store (.newArray operand) .intArray
  | index pos array position mirrorsArray mirrorsPosition =>
    rw [emission]
    exact mirrors_ofValue fun _ => (mirrorsArray.value _).bind fun arrayOperand =>
      (mirrorsPosition.value _).bind fun positionOperand =>
        mirrors_store (.loadElement arrayOperand positionOperand) .int
  | length pos array mirrorsArray =>
    rw [emission]
    exact mirrors_ofValue fun _ => (mirrorsArray.value _).bind fun operand =>
      mirrors_store (.arrayLength operand) .int
  | arrayLiteral pos elements mirrorsElements =>
    rw [emission, map_emission_arguments]
    exact mirrors_ofValue fun _ => mirrors_pack (List.forall_mem_map.mpr mirrorsElements) .int
  | paren pos inner mirrorsInner =>
    rw [emission]
    exact mirrorsInner

/-! ### Statements -/

theorem mirrors_lowerValue (fixes : renumbering.Fixes scope) (expr : Expr) (expected : Ty) :
    Lower.Mirrors scope renumbering bound renumbering.operand (scope.lowerValue expr expected)
      (scope.lowerValue expr expected) :=
  (mirrors_emission fixes expr).value expected

theorem mirrors_lowerEval (fixes : renumbering.Fixes scope) (expr : Expr) :
    Lower.Mirrors scope renumbering bound id (scope.lowerEval expr) (scope.lowerEval expr) := by
  rw [lowerEval]
  split
  · refine (mirrors_invocation (fun expr _ => mirrors_emission fixes expr)
      (fun arg _ => mirrors_emission fixes arg) _ _).bind fun call => ?_
    show Lower.Mirrors scope renumbering bound id _ (if call.returnType.isVoid then _ else _)
    split
    · exact mirrors_emit (.call call)
    · exact mirrors_emit (.discard (.call call))
  · exact (mirrors_lowerValue fixes _ _).bind fun _ => mirrors_pure rfl

theorem instr_rightHandSide (scope : Scope) (renumbering : Renumbering) (operand : Operand) :
    renumbering.instr (scope.rightHandSide operand) =
      scope.rightHandSide (renumbering.operand operand) := by
  cases operand <;> rfl

theorem mirrors_lowerAssign (fixes : renumbering.Fixes scope) (target value : Expr) :
    Lower.Mirrors scope renumbering bound id (scope.lowerAssign target value)
      (scope.lowerAssign target value) := by
  rw [lowerAssign]
  split
  · next pos name _ =>
    split
    · next binding _ =>
      exact (mirrors_lowerValue fixes _ _).bind fun operand => mirrors_emit
        (.putField (.this scope.table.classType) binding.name binding.ty operand)
    · next found _ resolved =>
      have kept : renumbering.name name = name :=
        fixes name ((scope.lookup?_isSome_iff name).mp (Option.isSome_of_eq_some resolved))
      refine (mirrors_lowerValue fixes _ _).bind fun operand => ?_
      have mirrors : Lower.Mirrors scope renumbering bound id _ _ :=
        mirrors_emit (.assign name (scope.rightHandSide operand) found.ty)
      rwa [Renumbering.instr, kept, instr_rightHandSide] at mirrors
    · exact mirrors_fail _ _
  · exact (mirrors_lowerValue fixes _ _).bind fun array =>
      (mirrors_lowerValue fixes _ _).bind fun position =>
        (mirrors_lowerValue fixes _ _).bind fun operand =>
          mirrors_emit (.storeElement array position operand)
  · exact mirrors_fail _ _

theorem mirrors_lowerReturn (fixes : renumbering.Fixes scope) (value : Option Expr) :
    Lower.Mirrors scope renumbering bound id (scope.lowerReturn value)
      (scope.lowerReturn value) := by
  cases value with
  | none => exact mirrors_emit (.ret none scope.method.returnType)
  | some expr =>
    exact (mirrors_lowerValue fixes _ _).bind fun operand =>
      mirrors_emit (.ret (some operand) scope.method.returnType)

/-- Statements one after the other, if each of them mirrors itself. -/
theorem mirrors_body_of {body : List Stmt}
    (mirrors : ∀ stmt ∈ body, Lower.Mirrors scope renumbering bound id (scope.lowerStmt stmt)
      (scope.lowerStmt stmt)) :
    Lower.Mirrors scope renumbering bound id (scope.lowerBody body) (scope.lowerBody body) := by
  induction body with
  | nil =>
    rw [lowerBody]
    exact mirrors_pure rfl
  | cons stmt rest inductionHypothesis =>
    obtain ⟨first, others⟩ := List.forall_mem_cons.mp mirrors
    rw [lowerBody]
    exact first.bind fun _ => inductionHypothesis others

theorem mirrors_lowerStmt (fixes : renumbering.Fixes scope) (stmt : Stmt) :
    Lower.Mirrors scope renumbering bound id (scope.lowerStmt stmt) (scope.lowerStmt stmt) := by
  induction stmt with
  | block pos body inductionHypothesis =>
    rw [lowerStmt]
    exact mirrors_body_of inductionHypothesis
  | ifElse pos condition thenBranch elseBranch thenHypothesis elseHypothesis =>
    rw [lowerStmt]
    refine mirrors_labelId.bind fun number => ?_
    have decides : Lower.Mirrors scope renumbering bound id _ _ :=
      (mirrors_emission fixes condition).jump (.numbered "then_" number) (.numbered "else_" number)
    rw [renumbering.label_numbered number (by decide),
      renumbering.label_numbered number (by decide)] at decides
    have joins := thenHypothesis.joining (.numbered "endif_" number)
    rw [renumbering.label_numbered number (by decide)] at joins
    refine decides.bind fun _ => (mirrors_label "then_" number (by decide)).bind fun _ => ?_
    refine joins.bind fun _ => (mirrors_label "else_" number (by decide)).bind fun _ => ?_
    cases elseBranch with
    | none => exact mirrors_label "endif_" number (by decide)
    | some other =>
      exact (elseHypothesis other rfl).bind fun _ => mirrors_label "endif_" number (by decide)
  | whileLoop pos condition body inductionHypothesis =>
    rw [lowerStmt]
    refine mirrors_labelId.bind fun number => ?_
    have decides : Lower.Mirrors scope renumbering bound id _ _ :=
      (mirrors_emission fixes condition).jump (.numbered "while_body_" number)
        (.numbered "while_end_" number)
    rw [renumbering.label_numbered number (by decide),
      renumbering.label_numbered number (by decide)] at decides
    refine (mirrors_label "while_cond_" number (by decide)).bind fun _ => ?_
    refine decides.bind fun _ => (mirrors_label "while_body_" number (by decide)).bind fun _ => ?_
    refine inductionHypothesis.bind fun _ => ?_
    refine (mirrors_goto "while_cond_" number (by decide)).bind fun _ => ?_
    exact mirrors_label "while_end_" number (by decide)
  | eval pos expr =>
    rw [lowerStmt]
    exact mirrors_lowerEval fixes expr
  | assign pos target value =>
    rw [lowerStmt]
    exact mirrors_lowerAssign fixes target value
  | ret pos value =>
    rw [lowerStmt]
    exact mirrors_lowerReturn fixes value

theorem mirrors_lowerBody (fixes : renumbering.Fixes scope) (body : List Stmt) :
    Lower.Mirrors scope renumbering bound id (scope.lowerBody body) (scope.lowerBody body) :=
  mirrors_body_of fun stmt _ => mirrors_lowerStmt fixes stmt

/-! ### The renumbering of two runs -/

/-- Only finitely many temporaries have the name of a variable. -/
instance finite_declaredTemps (scope : Scope) :
    Finite {number // (scope.lookup? (tempName number)).isSome} := by
  refine Finite.of_injective (fun number => (⟨tempName number.1,
    (scope.lookup?_isSome_iff _).mp number.2⟩ : {name // name ∈ scope.names})) ?_
  intro first second same
  exact Subtype.ext (tempName_injective (congrArg Subtype.val same))

/-- From any two counts there is a renumbering that keeps the variables of the method and takes
what the one run can take up to a bound to what the other run takes in its place. -/
theorem exists_synced (scope : Scope) (bound first second : Counters) :
    ∃ renumbering : Renumbering, renumbering.Fixes scope ∧
      scope.Synced renumbering bound first second := by
  -- The numbers that must stay, and those that are taken in order.
  let numbers (start : Nat) :
      {number // (scope.lookup? (tempName number)).isSome} ⊕ Fin bound.temps → Nat :=
    Sum.elim Subtype.val fun position => scope.nthTemp start position
  have distinct (start : Nat) : Function.Injective (numbers start) := by
    refine Subtype.val_injective.sumElim ?_ ?_
    · exact (scope.nthTemp_strictMono start).injective.comp Fin.val_injective
    · intro declared position same
      have resolved := declared.2
      rw [same, scope.lookup?_nthTemp] at resolved
      cases resolved
  obtain ⟨temps, isTemps⟩ := Equiv.Perm.exists_extending_pair (numbers first.temps)
    (numbers second.temps) (distinct first.temps) (distinct second.temps)
  have shifts (start : Nat) :
      Function.Injective fun position : Fin bound.labels => start + position.val :=
    fun _ _ same => Fin.ext (Nat.add_left_cancel same)
  obtain ⟨labels, isLabels⟩ := Equiv.Perm.exists_extending_pair _ _ (shifts first.labels)
    (shifts second.labels)
  refine ⟨⟨temps, labels⟩, fun name member => ?_, fun position below => ?_,
    fun position below => ?_⟩
  · rw [Renumbering.name]
    cases isTemp : tempNumber? name with
    | none => rfl
    | some number =>
      obtain rfl := eq_tempName_of_tempNumber? isTemp
      exact congrArg tempName
        (isTemps (.inl ⟨number, (scope.lookup?_isSome_iff _).mpr member⟩))
  · have small : position < bound.temps :=
      Nat.lt_of_le_of_lt ((scope.nthTemp_strictMono first.temps).le_apply) below
    exact isTemps (.inr ⟨position, small⟩)
  · exact isLabels ⟨position, by omega⟩

/-- From any two counts, lowering a body fails with the same fault or gives the same code up to a
renumbering that keeps the variables of the method. -/
theorem lowerBody_renumbered (scope : Scope) (body : List Stmt) (first second : Counters) :
    ∃ renumbering : Renumbering, renumbering.Fixes scope ∧
      (scope.lowerBody body second).outcome = (scope.lowerBody body first).outcome ∧
      (scope.lowerBody body second).code =
        (scope.lowerBody body first).code.map renumbering.instr := by
  obtain ⟨renumbering, fixes, synced⟩ :=
    scope.exists_synced (scope.lowerBody body first).counters first second
  have ended := (mirrors_lowerBody fixes body).runs synced (.refl _)
  refine ⟨renumbering, fixes, ?_, ended.code⟩
  rw [ended.outcome]
  cases (scope.lowerBody body first).outcome <;> rfl

end Scope

end JavaMinus
