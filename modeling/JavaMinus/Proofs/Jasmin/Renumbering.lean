/-
This file follows a renumbering from the code of a method to its assembly. New
numbers for temporaries do not change the order in which variables are first
mentioned, so every variable has the register that it had under its old name; and
assembly names registers, not variables. What is left of the renumbering are the
labels: the blocks of the two methods are the same up to these.

So the block of a method does not depend on what was lowered before it, apart from
the numbers of its labels.
-/

import JavaMinus.Jasmin.Assembler
import JavaMinus.Proofs.Registers
import JavaMinus.Proofs.Lowering.Renumbering

namespace JavaMinus

/-! ### Registers -/

namespace Registers

variable {rename : String → String}

/-- Declaring a name under its new name adds what declaring it adds, under the new name. -/
theorem toList_declare_renamed (injective : Function.Injective rename)
    {first second : Registers} (firstValid : first.Valid) (secondValid : second.Valid)
    (renamed : second.toList = first.toList.map (Prod.map rename id)) (name : String) (ty : Ty) :
    (second.declare (rename name) ty).toList =
      (first.declare name ty).toList.map (Prod.map rename id) := by
  have known : second.index.contains (rename name) = first.index.contains name := by
    have names : second.toList.map Prod.fst = (first.toList.map Prod.fst).map rename := by
      rw [renamed, List.map_map, List.map_map]
      rfl
    rw [Bool.eq_iff_iff, secondValid.contains_iff, firstValid.contains_iff, names,
      List.mem_map_of_injective injective]
  cases isKnown : first.index.contains name with
  | true => rw [declare_of_contains (known.trans isKnown), declare_of_contains isKnown, renamed]
  | false =>
    have sizes : second.size = first.size := by
      rw [size, size, ← Array.length_toList, ← Array.length_toList]
      exact (congrArg List.length renamed).trans (List.length_map _)
    rw [toList_declare_of_not_contains (known.trans isKnown),
      toList_declare_of_not_contains isKnown, renamed, sizes, List.map_append]
    rfl

theorem toList_declareAll_renamed (injective : Function.Injective rename)
    {first second : Registers} (firstValid : first.Valid) (secondValid : second.Valid)
    (renamed : second.toList = first.toList.map (Prod.map rename id))
    (bindings : List Binding) :
    (second.declareAll (bindings.map fun binding => ⟨rename binding.name, binding.ty⟩)).toList =
      (first.declareAll bindings).toList.map (Prod.map rename id) := by
  induction bindings generalizing first second with
  | nil => exact renamed
  | cons binding rest inductionHypothesis =>
    exact inductionHypothesis (firstValid.declare binding.name binding.ty)
      (secondValid.declare _ binding.ty)
      (toList_declare_renamed injective firstValid secondValid renamed binding.name binding.ty)

/-- A variable has under its new name the register that it had. -/
theorem get?_renamed (injective : Function.Injective rename) {first second : Registers}
    (firstValid : first.Valid) (secondValid : second.Valid)
    (renamed : second.toList = first.toList.map (Prod.map rename id)) (name : String) :
    second.get? (rename name) = first.get? name := by
  refine Option.ext fun register => ?_
  rw [secondValid.get?_eq_some_iff, firstValid.get?_eq_some_iff]
  refine exists_congr fun position => ?_
  rw [← Array.getElem?_toList, ← Array.getElem?_toList]
  change second.toList[position]? = _ ↔ first.toList[position]? = _
  rw [renamed, List.getElem?_map]
  cases first.toList[position]? with
  | none => simp
  | some entry => simp [Prod.ext_iff, injective.eq_iff]

end Registers

namespace Renumbering

variable (renumbering : Renumbering)

/-- The binding of a variable under its new name. -/
def binding (bound : Binding) : Binding := ⟨renumbering.name bound.name, bound.ty⟩

theorem mentions_operand (value : Operand) :
    (renumbering.operand value).mentions = value.mentions.map renumbering.binding := by
  cases value <;> rfl

theorem mentions_operands (values : List Operand) :
    (values.map renumbering.operand).flatMap Operand.mentions =
      (values.flatMap Operand.mentions).map renumbering.binding := by
  rw [List.flatMap_map, List.map_flatMap]
  exact List.flatMap_congr fun value _ => renumbering.mentions_operand value

theorem mentions_call (invocation : Call) :
    (renumbering.call invocation).mentions =
      invocation.mentions.map renumbering.binding := by
  obtain ⟨kind, target, method, args, returnType⟩ := invocation
  cases target with
  | receiver value =>
    simp only [call, Renumbering.target, Call.mentions, List.map_append, mentions_operands,
      mentions_operand]
  | _ => simp only [call, Renumbering.target, Call.mentions, List.map_append, mentions_operands,
      List.map_nil]

/-- New numbers do not change what is mentioned when. -/
theorem mentions_instr (single : Instr) :
    (renumbering.instr single).mentions = single.mentions.map renumbering.binding := by
  induction single with
  | assign dest rhs ty inductionHypothesis =>
    rw [instr, Instr.mentions, Instr.mentions, inductionHypothesis, List.map_cons]
    rfl
  | discard inner inductionHypothesis => exact inductionHypothesis
  | call invocation => exact renumbering.mentions_call invocation
  | ret result ty => cases result <;> simp [instr, Instr.mentions, mentions_operand]
  | branch decision place =>
    cases decision <;> simp [instr, condition, Instr.mentions, Condition.mentions, mentions_operand]
  | _ => simp [instr, Instr.mentions, mentions_operand]

/-- Every variable of the code has the register under its new name that it had. The receiver and
the parameters keep their names. -/
theorem toList_allocate {scope : Scope} (fixes : renumbering.Fixes scope) (receiver : Option Ty)
    (code : List Instr) :
    (Registers.allocate receiver scope.method.params (code.map renumbering.instr)).toList =
      (Registers.allocate receiver scope.method.params code).toList.map
        (Prod.map renumbering.name id) := by
  have kept : ((receiver.toList.map fun ty => (⟨"this", ty⟩ : Binding)) ++
      scope.method.params).map renumbering.binding =
        (receiver.toList.map fun ty => ⟨"this", ty⟩) ++ scope.method.params := by
    rw [List.map_append, List.map_map]
    congr 1
    · refine List.map_congr_left fun ty _ => ?_
      have notTemp : renumbering.name "this" = "this" :=
        renumbering.name_of_not_temp fun number same => tempName_ne_this number same.symm
      rw [Function.comp_apply, binding, notTemp]
    · refine (List.map_congr_left fun param member => ?_).trans (List.map_id _)
      have inNames : param.name ∈ scope.names :=
        List.mem_map_of_mem (List.mem_append_left _ (List.mem_append_right _ member))
      rw [binding, fixes param.name inNames, id]
  have mentioned : (code.map renumbering.instr).flatMap Instr.mentions =
      (code.flatMap Instr.mentions).map renumbering.binding := by
    rw [List.flatMap_map, List.map_flatMap]
    exact List.flatMap_congr fun single _ => renumbering.mentions_instr single
  rw [Registers.allocate, Registers.allocate, mentioned]
  nth_rewrite 1 [← kept]
  rw [← List.map_append]
  exact Registers.toList_declareAll_renamed renumbering.name_injective
    Registers.valid_empty Registers.valid_empty rfl _

theorem ty_operand (value : Operand) : (renumbering.operand value).ty = value.ty := by
  cases value <;> rfl

/-! ### Lines -/

open Jasmin in
/-- The line with new labels. -/
def line : Line → Line
  | .label place => .label (renumbering.label place)
  | .goto place => .goto (renumbering.label place)
  | .ifLess place => .ifLess (renumbering.label place)
  | .ifNonZero place => .ifNonZero (renumbering.label place)
  | other => other

end Renumbering

namespace Jasmin

/-- The two selections both fail, or the second one gives the image of what the first one
gives. -/
inductive Mirrored {α β : Type} (image : α → β) : Except Fault α → Except Fault β → Prop
  | ok (result : α) : Mirrored image (.ok result) (.ok (image result))
  | error (fault other : Fault) : Mirrored image (.error fault) (.error other)

namespace Mirrored

variable {α β γ δ : Type} {image : α → β} {first : Except Fault α} {second : Except Fault β}

theorem of_eq {result : α} {mirrored : β} (same : image result = mirrored) :
    Mirrored image (.ok result) (.ok mirrored) := same ▸ .ok result

theorem same {outcome other : Except Fault α} (equal : other = outcome) :
    Mirrored id outcome other := by
  subst equal
  cases other with
  | ok result => exact .ok result
  | error fault => exact .error fault fault

theorem outcomes (mirrored : Mirrored image first second) :
    (∃ result, first = .ok result ∧ second = .ok (image result)) ∨
      ∃ fault other, first = .error fault ∧ second = .error other := by
  cases mirrored with
  | ok result => exact .inl ⟨result, rfl, rfl⟩
  | error fault other => exact .inr ⟨fault, other, rfl, rfl⟩

theorem bind (start : Mirrored image first second) {other : γ → δ} {next : α → Except Fault γ}
    {following : β → Except Fault δ}
    (rest : ∀ result, Mirrored other (next result) (following (image result))) :
    Mirrored other (first >>= next) (second >>= following) := by
  cases start with
  | ok result => exact rest result
  | error fault otherFault => exact .error fault otherFault

theorem map (start : Mirrored image first second) {other : γ → δ} {change : α → γ}
    {changed : β → δ} (commutes : ∀ result, other (change result) = changed (image result)) :
    Mirrored other (first.map change) (second.map changed) := by
  cases start with
  | ok result => exact .of_eq (commutes result)
  | error fault otherFault => exact .error fault otherFault

theorem mapM {each : α → Except Fault γ} {other : β → Except Fault δ} {results : γ → δ}
    {items : List α}
    (mirrored : ∀ item ∈ items, Mirrored results (each item) (other (image item))) :
    Mirrored (List.map results) (items.mapM each) ((items.map image).mapM other) := by
  induction items with
  | nil => exact .ok []
  | cons item rest inductionHypothesis =>
    obtain ⟨head, others⟩ := List.forall_mem_cons.mp mirrored
    rw [List.map_cons, List.mapM_cons, List.mapM_cons]
    exact head.bind fun result => (inductionHypothesis others).bind fun results =>
      .ok (result :: results)

end Mirrored

variable {renumbering : Renumbering}

theorem line_push (value : Int32) : renumbering.line (.push value) = .push value := by
  rw [Line.push]
  repeat' split
  all_goals rfl

theorem line_loadSlot (cell : Cell) (slot : UInt16) :
    renumbering.line (.loadSlot cell slot) = .loadSlot cell slot := by
  rw [Line.loadSlot]
  split <;> rfl

theorem line_storeSlot (cell : Cell) (slot : UInt16) :
    renumbering.line (.storeSlot cell slot) = .storeSlot cell slot := by
  rw [Line.storeSlot]
  split <;> rfl

/-- The classes have one name and the same imports, and their methods are declared alike. -/
structure Agrees (first second : ClassCode) : Prop where
  name : second.name = first.name
  imports : second.imports = first.imports
  methods : ∀ name,
    (second.method? name).map (fun method => (method.params, method.returnType)) =
      (first.method? name).map fun method => (method.params, method.returnType)

namespace Agrees

variable {code other : ClassCode}

theorem classPath (agrees : Agrees code other) (name : String) :
    other.classPath name = code.classPath name := by
  rw [ClassCode.classPath, ClassCode.classPath, ClassCode.importFor?, ClassCode.importFor?,
    agrees.name, agrees.imports]

theorem descriptor (agrees : Agrees code other) (ty : Ty) :
    other.descriptor ty = code.descriptor ty := by
  have base : other.baseDescriptor? ty = code.baseDescriptor? ty := by
    simp only [ClassCode.baseDescriptor?, agrees.classPath]
  rw [ClassCode.descriptor, ClassCode.descriptor, base]

theorem methodDescriptor (agrees : Agrees code other) (params : List Ty) (result : Ty) :
    other.methodDescriptor params result = code.methodDescriptor params result := by
  have each : other.descriptor = code.descriptor := funext agrees.descriptor
  rw [ClassCode.methodDescriptor, ClassCode.methodDescriptor, each]

end Agrees

namespace Frame

/-- The frames look up the same slots, under the old names and under the new ones. -/
structure Renumbered (renumbering : Renumbering) (first second : Frame) : Prop where
  agrees : Agrees first.code second.code
  registers : ∀ name, second.method.registers.get? (renumbering.name name) =
    first.method.registers.get? name

variable {first second : Frame}

namespace Renumbered

theorem slot (frames : Renumbered renumbering first second) (name : String) :
    Mirrored id (first.slot name) (second.slot (renumbering.name name)) := by
  rw [Frame.slot, Frame.slot, frames.registers]
  split
  · exact .ok _
  · exact .error _ _

theorem readField (frames : Renumbered renumbering first second) (owner field : String)
    (ty : Ty) :
    Mirrored renumbering.line (first.readField owner field ty)
      (second.readField owner field ty) := by
  rw [Frame.readField, Frame.readField, frames.agrees.classPath]
  exact (Mirrored.same (frames.agrees.descriptor ty)).map fun _ => rfl

theorem writeField (frames : Renumbered renumbering first second) (owner field : String)
    (ty : Ty) :
    Mirrored renumbering.line (first.writeField owner field ty)
      (second.writeField owner field ty) := by
  rw [Frame.writeField, Frame.writeField, frames.agrees.classPath]
  exact (Mirrored.same (frames.agrees.descriptor ty)).map fun _ => rfl

theorem load (frames : Renumbered renumbering first second) (value : Operand) :
    Mirrored (List.map renumbering.line) (first.load value)
      (second.load (renumbering.operand value)) := by
  cases value with
  | literal value ty => exact .of_eq (by rw [List.map_singleton, line_push])
  | var name ty =>
    exact (frames.slot name).bind fun slot =>
      .of_eq (by rw [List.map_singleton, line_loadSlot, id])
  | field name ty =>
    show Mirrored _ _ (second.load (.field name ty))
    rw [Frame.load, Frame.load, frames.agrees.name]
    exact (frames.readField first.code.name name ty).bind fun _ => .ok _
  | this ty => exact .ok _

theorem loadAll (frames : Renumbered renumbering first second) (values : List Operand) :
    Mirrored (List.map renumbering.line) (first.loadAll values)
      (second.loadAll (values.map renumbering.operand)) :=
  (Mirrored.mapM fun value _ => frames.load value).map fun _ => List.map_flatten

/-! ### Calls -/

theorem callTarget (frames : Renumbered renumbering first second) (target : CallTarget) :
    Mirrored (Prod.map (List.map renumbering.line) id) (first.callTarget target)
      (second.callTarget (renumbering.target target)) := by
  cases target with
  | this =>
    refine .of_eq ?_
    rw [frames.agrees.name]
    rfl
  | receiver value =>
    refine (frames.load value).bind fun _ => .of_eq ?_
    rw [renumbering.ty_operand]
    rfl
  | ofClass name => exact .ok _

theorem callDescriptor (frames : Renumbered renumbering first second) (owner : String)
    (invocation : Call) :
    second.callDescriptor owner (renumbering.call invocation) =
      first.callDescriptor owner invocation := by
  have types : (renumbering.call invocation).args.map Operand.ty =
      invocation.args.map Operand.ty := by
    rw [Renumbering.call, List.map_map]
    exact List.map_congr_left fun value _ => renumbering.ty_operand value
  have declared := frames.agrees.methods invocation.method
  rw [Frame.callDescriptor, Frame.callDescriptor, types, frames.agrees.name]
  simp only [Renumbering.call, frames.agrees.methodDescriptor]
  cases own : first.code.method? invocation.method with
  | none =>
    rw [own, Option.map_none, Option.map_eq_none_iff] at declared
    rw [declared]
  | some callee =>
    rw [own, Option.map_some, Option.map_eq_some_iff] at declared
    obtain ⟨other, found, same⟩ := declared
    obtain ⟨params, result⟩ := Prod.mk.inj same
    simp only [found, params, result]

theorem callLine (frames : Renumbered renumbering first second) (owner : String)
    (invocation : Call) (descriptor : MethodDescriptor) :
    Mirrored renumbering.line (first.callLine owner invocation descriptor)
      (second.callLine owner (renumbering.call invocation) descriptor) := by
  obtain ⟨kind, target, method, args, returnType⟩ := invocation
  rw [Frame.callLine, Frame.callLine, frames.agrees.classPath]
  cases kind with
  | constructor => exact .error _ _
  | virtual =>
    cases target with
    | this | receiver => exact .ok _
    | ofClass => exact .error _ _
  | static =>
    cases target with
    | this | receiver => exact .error _ _
    | ofClass => exact .ok _

theorem call (frames : Renumbered renumbering first second) (invocation : Call) :
    Mirrored (List.map renumbering.line) (first.call invocation)
      (second.call (renumbering.call invocation)) := by
  refine (frames.callTarget invocation.target).bind fun (target, owner) => ?_
  show Mirrored _ (if invocation.kind = .constructor then _ else _)
    (if invocation.kind = .constructor then _ else _)
  split
  · refine .of_eq ?_
    rw [List.map_append, ← frames.agrees.classPath]
    rfl
  · refine (frames.loadAll invocation.args).bind fun args => ?_
    refine (Mirrored.same (frames.callDescriptor owner invocation)).bind fun descriptor => ?_
    refine (frames.callLine owner invocation descriptor).bind fun line => .of_eq ?_
    rw [List.map_append, List.map_append]
    rfl

/-! ### Instructions -/

theorem value (frames : Renumbered renumbering first second) (rhs : Instr) :
    Mirrored (List.map renumbering.line) (first.value rhs)
      (second.value (renumbering.instr rhs)) := by
  cases rhs with
  | value read => exact frames.load read
  | arith op left right ty =>
    exact (frames.loadAll [left, right]).bind fun _ => .of_eq List.map_append
  | newObject className =>
    refine .of_eq ?_
    rw [frames.agrees.classPath]
    rfl
  | newArray size => exact (frames.load size).bind fun _ => .of_eq List.map_append
  | call invocation => exact frames.call invocation
  | getField receiver field ty =>
    refine (frames.load receiver).bind fun _ => ?_
    rw [renumbering.ty_operand]
    exact (frames.readField receiver.ty.base field ty).bind fun _ => .of_eq List.map_append
  | loadElement array position =>
    exact (frames.loadAll [array, position]).bind fun _ => .of_eq List.map_append
  | arrayLength array => exact (frames.load array).bind fun _ => .of_eq List.map_append
  | _ => exact .error _ _

theorem ret (frames : Renumbered renumbering first second) (result : Option Operand) (ty : Ty) :
    Mirrored (List.map renumbering.line) (first.ret result ty)
      (second.ret (result.map renumbering.operand) ty) := by
  unfold Frame.ret
  split
  · exact .ok _
  · cases result with
    | none => exact .error _ _
    | some value => exact (frames.load value).bind fun _ => .of_eq List.map_append

/-- An instruction with new numbers becomes the same lines up to the labels. -/
theorem select (frames : Renumbered renumbering first second) (single : Instr) :
    Mirrored (List.map renumbering.line) (first.select single)
      (second.select (renumbering.instr single)) := by
  cases single with
  | assign dest rhs ty =>
    refine (frames.value rhs).bind fun _ => (frames.slot dest).bind fun _ => .of_eq ?_
    rw [List.map_append, List.map_singleton, line_storeSlot, id]
  | call invocation =>
    show Mirrored _ (if invocation.returnType.isVoid then _ else _)
      (if invocation.returnType.isVoid then _ else _)
    split
    · exact frames.call invocation
    · exact .error _ _
  | discard inner =>
    cases inner with
    | call invocation =>
      refine (frames.call invocation).bind fun _ => .of_eq ?_
      show _ = if invocation.returnType.isVoid then _ else _
      split
      · rfl
      · exact List.map_append
    | _ => exact .error _ _
  | putField receiver field ty stored =>
    refine (frames.loadAll [receiver, stored]).bind fun _ => ?_
    rw [renumbering.ty_operand]
    exact (frames.writeField receiver.ty.base field ty).bind fun _ => .of_eq List.map_append
  | storeElement array position stored =>
    exact (frames.loadAll [array, position, stored]).bind fun _ => .of_eq List.map_append
  | label | goto => exact .ok _
  | branch decision place =>
    cases decision with
    | less left right =>
      exact (frames.loadAll [left, right]).bind fun _ => .of_eq List.map_append
    | nonZero value => exact (frames.load value).bind fun _ => .of_eq List.map_append
  | ret result ty => exact frames.ret result ty
  | _ => exact .error _ _

/-- Bodies that are the same up to numbers become lines that are the same up to labels. -/
theorem lines (frames : Renumbered renumbering first second)
    (bodies : second.method.body = first.method.body.map renumbering.instr) :
    Mirrored (List.map renumbering.line) first.lines second.lines := by
  rw [Frame.lines, Frame.lines, bodies]
  exact (Mirrored.mapM fun single _ => frames.select single).map fun _ => List.map_flatten

end Renumbered

end Frame

/-! ### Blocks -/

/-- What stands in the block of a method before its lines. -/
def blockHead (limits : Limits) (method : MethodCode) (descriptor : MethodDescriptor) : String :=
  let isPublic := if method.isPublic then "public " else ""
  let isStatic := if method.isStatic then "static " else ""
  s!".method {isPublic}{isStatic}{method.name}{descriptor.text}\n"
    ++ s!"  .limit stack {limits.stack.toNat}\n"
    ++ s!"  .limit locals {limits.locals.toNat}\n"

/-- The block of a method, of which the head and the lines are given. -/
def block (head : String) (lines : List Line) : String :=
  head ++ String.join (lines.map Line.text) ++ ".end method\n"

/-- The block of a method is made of its descriptor and its lines. -/
theorem methodText_eq (limits : Limits) (code : ClassCode) (method : MethodCode) :
    methodText limits code method =
      (code.methodDescriptor (method.params.map Binding.ty) method.returnType >>=
        fun descriptor => Frame.lines ⟨code, method⟩ >>= fun lines =>
          .ok (block (blockHead limits method descriptor) lines)) := rfl

/-- Either the blocks of two methods are made, with one head and lines that are the same up to the
labels, or neither of them is. -/
def SameBlock (renumbering : Renumbering) (limits : Limits) (first second : Frame) : Prop :=
  (∃ head lines,
    first.lines = .ok lines ∧ second.lines = .ok (lines.map renumbering.line) ∧
    methodText limits first.code first.method = .ok (block head lines) ∧
    methodText limits second.code second.method = .ok (block head (lines.map renumbering.line))) ∨
  ∃ fault other, methodText limits first.code first.method = .error fault ∧
    methodText limits second.code second.method = .error other

/-- A method and the same one with renumbered code have the same block. -/
theorem Frame.Renumbered.sameBlock {code other : ClassCode} {scope : Scope} {body : List Instr}
    (frames : Renumbered renumbering ⟨code, scope.methodCode body⟩
      ⟨other, scope.methodCode (body.map renumbering.instr)⟩) (limits : Limits) :
    SameBlock renumbering limits ⟨code, scope.methodCode body⟩
      ⟨other, scope.methodCode (body.map renumbering.instr)⟩ := by
  have described : other.methodDescriptor (scope.method.params.map Binding.ty)
      scope.method.returnType = code.methodDescriptor (scope.method.params.map Binding.ty)
        scope.method.returnType := frames.agrees.methodDescriptor _ _
  rw [SameBlock, methodText_eq, methodText_eq]
  simp only [Scope.methodCode, described]
  cases code.methodDescriptor (scope.method.params.map Binding.ty) scope.method.returnType with
  | error fault => exact .inr ⟨fault, fault, rfl, rfl⟩
  | ok descriptor =>
    rcases (frames.lines rfl).outcomes with ⟨lines, left, right⟩ | ⟨fault, otherFault, left, right⟩
    · simp only [Scope.methodCode] at left right
      rw [left, right]
      exact .inl ⟨_, lines, rfl, rfl, rfl, rfl⟩
    · simp only [Scope.methodCode] at left right
      rw [left, right]
      exact .inr ⟨fault, otherFault, rfl, rfl⟩

end Jasmin

/-- The return that is added to a method is added to renumbered code, too. -/
theorem Signature.close_renumbered (method : Signature) (renumbering : Renumbering)
    (code : List Instr) :
    method.close (code.map renumbering.instr) = (method.close code).map renumbering.instr := by
  have closed : (code.map renumbering.instr).getLast?.any Instr.isReturn =
      code.getLast?.any Instr.isReturn := by
    rw [List.getLast?_map, Option.any_map]
    exact congrArg (fun test => Option.any test _) (funext renumbering.isReturn_instr)
  rw [close, close, closed]
  split
  · rw [List.map_append]
    rfl
  · rfl

namespace Scope

open Jasmin

/-- The code of a method does not depend on what was lowered before it, apart from numbers. From
any two counts, lowering its body fails with the same fault, or succeeds with code that is the
same up to new numbers for labels and for temporaries, which leave the variables of the method
alone. The registers are the same in order, slots and types, and in any two classes that declare
the same, the blocks of assembly are the same up to the numbers of labels, or neither is made. -/
theorem lowerMethod_renumbered (scope : Scope) (body : List Stmt) (before other : Counters) :
    (∃ fault, (scope.lowerMethod body before).1 = .error fault ∧
      (scope.lowerMethod body other).1 = .error fault) ∨
    ∃ first second renumbering,
      (scope.lowerMethod body before).1 = .ok first ∧
      (scope.lowerMethod body other).1 = .ok second ∧
      Function.Injective renumbering.name ∧ renumbering.Fixes scope ∧
      second.body = first.body.map renumbering.instr ∧
      second.registers.toList = first.registers.toList.map (Prod.map renumbering.name id) ∧
      ∀ limits code otherCode, Agrees code otherCode →
        SameBlock renumbering limits ⟨code, first⟩ ⟨otherCode, second⟩ := by
  obtain ⟨renumbering, fixes, outcome, sameCode⟩ := scope.lowerBody_renumbered body before other
  rw [lowerMethod, lowerMethod, outcome, sameCode, Signature.close_renumbered]
  cases (scope.lowerBody body before).outcome with
  | error fault => exact .inl ⟨fault, rfl, rfl⟩
  | ok result =>
    have registers := renumbering.toList_allocate fixes scope.receiverType?
      (scope.method.close (scope.lowerBody body before).code)
    refine .inr ⟨_, _, renumbering, rfl, rfl, renumbering.name_injective, fixes, rfl, registers,
      fun limits code otherCode agrees => ?_⟩
    refine Frame.Renumbered.sameBlock ⟨agrees, ?_⟩ limits
    exact Registers.get?_renamed renumbering.name_injective (Registers.valid_allocate _ _ _)
      (Registers.valid_allocate _ _ _) registers

end Scope

end JavaMinus
