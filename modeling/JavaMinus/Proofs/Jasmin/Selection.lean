/-
This file says once which lines an instruction becomes. Each rule of the
relations below gives the lines for one form of operand, call, right-hand side
or instruction, and every selection that succeeds is an instance of a rule. The
lines of a body are the blocks of its instructions, one behind the other, so an
instruction has an offset in the lines, and a label is found in the lines at the
offset of the instruction that places it.
-/

import Mathlib.Data.List.Forall2
import JavaMinus.Jasmin.Select
import JavaMinus.Proofs.Semantics.Code
import JavaMinus.Proofs.Semantics.Machine

namespace JavaMinus

namespace Jasmin

/-- A sequence succeeds when its parts do. -/
theorem bind_eq_ok_iff {ε α β : Type} {first : Except ε α} {next : α → Except ε β}
    {final : β} :
    first >>= next = .ok final ↔ ∃ result, first = .ok result ∧ next result = .ok final := by
  cases first with
  | error fault => exact ⟨nofun, fun ⟨_, same, _⟩ => nomatch same⟩
  | ok result =>
    constructor
    · intro same
      exact ⟨result, rfl, same⟩
    · rintro ⟨_, same, rest⟩
      cases same
      exact rest

theorem map_eq_ok_iff {ε α β : Type} {first : Except ε α} {change : α → β} {final : β} :
    first.map change = .ok final ↔ ∃ result, first = .ok result ∧ change result = final := by
  cases first with
  | error fault => exact ⟨nofun, fun ⟨_, same, _⟩ => nomatch same⟩
  | ok result =>
    exact ⟨fun same => ⟨result, rfl, Except.ok.inj same⟩,
      fun ⟨_, same, rest⟩ => by cases same; exact congrArg Except.ok rest⟩

/-- Each of several parts succeeds. -/
theorem mapM_eq_ok_iff {α β : Type} {each : α → Except Fault β} {items : List α}
    {results : List β} :
    items.mapM each = .ok results ↔
      List.Forall₂ (fun item result => each item = .ok result) items results := by
  induction items generalizing results with
  | nil =>
    rw [List.mapM_nil, List.forall₂_nil_left_iff]
    exact ⟨fun same => (Except.ok.inj same).symm, fun same => by rw [same]; rfl⟩
  | cons item rest inductionHypothesis =>
    rw [List.mapM_cons, List.forall₂_cons_left_iff]
    simp only [bind_eq_ok_iff, inductionHypothesis]
    constructor
    · rintro ⟨result, first, others, restResults, same⟩
      exact ⟨result, others, first, restResults, (Except.ok.inj same).symm⟩
    · rintro ⟨result, others, first, restResults, rfl⟩
      exact ⟨result, first, others, restResults, rfl⟩

namespace Frame

/-! ### Operands -/

/-- The lines that push an operand. -/
inductive Loads (frame : Frame) : Operand → List Line → Prop
  | literal {value ty} : Loads frame (.literal value ty) [.push value]
  | var {name ty register} (found : frame.method.registers.get? name = some register) :
      Loads frame (.var name ty) [.loadSlot (.ofTy ty) register.slot]
  | field {name ty descriptor} (described : frame.code.descriptor ty = .ok descriptor) :
      Loads frame (.field name ty)
        [.loadThis, .getField (frame.code.classPath frame.code.name) name descriptor]
  | this {ty} : Loads frame (.this ty) [.loadThis]

theorem slot_eq_ok_iff {frame : Frame} {name : String} {slot : UInt16} :
    frame.slot name = .ok slot ↔
      ∃ register, frame.method.registers.get? name = some register ∧ register.slot = slot := by
  rw [Frame.slot]
  cases found : frame.method.registers.get? name with
  | none => simp
  | some register => simp

theorem loads_of_load {frame : Frame} {operand : Operand} {lines : List Line}
    (loaded : frame.load operand = .ok lines) : frame.Loads operand lines := by
  cases operand with
  | literal value ty =>
    obtain rfl := Except.ok.inj loaded
    exact .literal
  | var name ty =>
    obtain ⟨slot, found, same⟩ := bind_eq_ok_iff.mp loaded
    obtain ⟨register, registered, rfl⟩ := slot_eq_ok_iff.mp found
    obtain rfl := Except.ok.inj same
    exact .var registered
  | field name ty =>
    obtain ⟨line, read, same⟩ := bind_eq_ok_iff.mp loaded
    obtain ⟨descriptor, described, rfl⟩ := map_eq_ok_iff.mp read
    obtain rfl := Except.ok.inj same
    exact .field described
  | this ty =>
    obtain rfl := Except.ok.inj loaded
    exact .this

/-- The lines that push operands, one behind the other. -/
inductive LoadsAll (frame : Frame) : List Operand → List Line → Prop
  | nil : LoadsAll frame [] []
  | cons {operand operands first rest} (loads : frame.Loads operand first)
      (restLoads : LoadsAll frame operands rest) :
      LoadsAll frame (operand :: operands) (first ++ rest)

theorem loadsAll_of_loadAll {frame : Frame} {operands : List Operand} {lines : List Line}
    (loaded : frame.loadAll operands = .ok lines) : frame.LoadsAll operands lines := by
  obtain ⟨blocks, loadedEach, rfl⟩ := map_eq_ok_iff.mp loaded
  have each := mapM_eq_ok_iff.mp loadedEach
  clear loaded loadedEach
  induction each with
  | nil => exact .nil
  | cons first _ inductionHypothesis => exact .cons (loads_of_load first) inductionHypothesis

/-! ### Calls -/

/-- The lines that push what a call is made on, and the class it belongs to. -/
inductive Targets (frame : Frame) : CallTarget → List Line → String → Prop
  | this : Targets frame .this [.loadThis] frame.code.name
  | receiver {operand lines} (loads : frame.Loads operand lines) :
      Targets frame (.receiver operand) lines operand.ty.base
  | ofClass {name} : Targets frame (.ofClass name) [] name

theorem targets_of_callTarget {frame : Frame} {target : CallTarget} {lines : List Line}
    {owner : String} (targeted : frame.callTarget target = .ok (lines, owner)) :
    frame.Targets target lines owner := by
  cases target with
  | this =>
    obtain ⟨rfl, rfl⟩ := Prod.mk.inj (Except.ok.inj targeted)
    exact .this
  | receiver operand =>
    obtain ⟨loaded, loads, same⟩ := bind_eq_ok_iff.mp targeted
    obtain ⟨rfl, rfl⟩ := Prod.mk.inj (Except.ok.inj same)
    exact .receiver (loads_of_load loads)
  | ofClass name =>
    obtain ⟨rfl, rfl⟩ := Prod.mk.inj (Except.ok.inj targeted)
    exact .ofClass

/-- The lines of a call. -/
inductive Calls (frame : Frame) : Call → List Line → Prop
  | construct {call target owner} (isConstructor : call.kind = .constructor)
      (targets : frame.Targets call.target target owner) :
      Calls frame call (target ++ [.construct (frame.code.classPath owner), .pop])
  | virtual {call target owner args descriptor} (isVirtual : call.kind = .virtual)
      (onValue : ∀ name, call.target ≠ .ofClass name)
      (targets : frame.Targets call.target target owner) (loads : frame.LoadsAll call.args args)
      (described : frame.callDescriptor owner call = .ok descriptor) :
      Calls frame call
        (target ++ args ++ [.invokeVirtual (frame.code.classPath owner) call.method descriptor])
  | static {call owner args descriptor} (isStatic : call.kind = .static)
      (onClass : call.target = .ofClass owner) (loads : frame.LoadsAll call.args args)
      (described : frame.callDescriptor owner call = .ok descriptor) :
      Calls frame call
        (args ++ [.invokeStatic (frame.code.classPath owner) call.method descriptor])

theorem calls_of_call {frame : Frame} {call : Call} {lines : List Line}
    (called : frame.call call = .ok lines) : frame.Calls call lines := by
  obtain ⟨⟨target, owner⟩, targeted, called⟩ := bind_eq_ok_iff.mp called
  have targets := targets_of_callTarget targeted
  simp only at called
  split at called
  · next isConstructor =>
    obtain rfl := Except.ok.inj called
    exact .construct isConstructor targets
  · next notConstructor =>
    simp only [bind_eq_ok_iff] at called
    obtain ⟨args, loaded, descriptor, described, line, lined, same⟩ := called
    obtain rfl := Except.ok.inj same
    have loads := loadsAll_of_loadAll loaded
    rw [callLine] at lined
    split at lined
    · next name isStatic onClass =>
      obtain rfl := Except.ok.inj lined
      rw [onClass] at targets
      cases targets
      exact .static isStatic onClass loads described
    · next isVirtual onThis =>
      obtain rfl := Except.ok.inj lined
      exact .virtual isVirtual (by simp [onThis]) targets loads described
    · next operand isVirtual onOperand =>
      obtain rfl := Except.ok.inj lined
      exact .virtual isVirtual (by simp [onOperand]) targets loads described
    · cases lined

/-! ### Instructions -/

/-- The lines that push the value of a right-hand side. -/
inductive Evaluates (frame : Frame) : Instr → List Line → Prop
  | value {operand lines} (loads : frame.Loads operand lines) :
      Evaluates frame (.value operand) lines
  | arith {op left right ty lines} (loads : frame.LoadsAll [left, right] lines) :
      Evaluates frame (.arith op left right ty) (lines ++ [.arith op])
  | newObject {className} :
      Evaluates frame (.newObject className) [.newObject (frame.code.classPath className), .dup]
  | newArray {size lines} (loads : frame.Loads size lines) :
      Evaluates frame (.newArray size) (lines ++ [.newIntArray])
  | call {invocation lines} (calls : frame.Calls invocation lines) :
      Evaluates frame (.call invocation) lines
  | getField {receiver field ty descriptor lines} (loads : frame.Loads receiver lines)
      (described : frame.code.descriptor ty = .ok descriptor) :
      Evaluates frame (.getField receiver field ty)
        (lines ++ [.getField (frame.code.classPath receiver.ty.base) field descriptor])
  | loadElement {array position lines} (loads : frame.LoadsAll [array, position] lines) :
      Evaluates frame (.loadElement array position) (lines ++ [.loadElement])
  | arrayLength {array lines} (loads : frame.Loads array lines) :
      Evaluates frame (.arrayLength array) (lines ++ [.arrayLength])

theorem evaluates_of_value {frame : Frame} {rhs : Instr} {lines : List Line}
    (valued : frame.value rhs = .ok lines) : frame.Evaluates rhs lines := by
  unfold value at valued
  split at valued
  · exact .value (loads_of_load valued)
  · obtain ⟨loaded, loads, same⟩ := bind_eq_ok_iff.mp valued
    obtain rfl := Except.ok.inj same
    exact .arith (loadsAll_of_loadAll loads)
  · obtain rfl := Except.ok.inj valued
    exact .newObject
  · obtain ⟨loaded, loads, same⟩ := bind_eq_ok_iff.mp valued
    obtain rfl := Except.ok.inj same
    exact .newArray (loads_of_load loads)
  · exact .call (calls_of_call valued)
  · simp only [bind_eq_ok_iff] at valued
    obtain ⟨loaded, loads, line, read, same⟩ := valued
    obtain ⟨descriptor, described, rfl⟩ := map_eq_ok_iff.mp read
    obtain rfl := Except.ok.inj same
    exact .getField (loads_of_load loads) described
  · obtain ⟨loaded, loads, same⟩ := bind_eq_ok_iff.mp valued
    obtain rfl := Except.ok.inj same
    exact .loadElement (loadsAll_of_loadAll loads)
  · obtain ⟨loaded, loads, same⟩ := bind_eq_ok_iff.mp valued
    obtain rfl := Except.ok.inj same
    exact .arrayLength (loads_of_load loads)
  · cases valued

/-- The lines of an instruction. -/
inductive Selects (frame : Frame) : Instr → List Line → Prop
  | assign {dest rhs ty register lines} (evaluates : frame.Evaluates rhs lines)
      (found : frame.method.registers.get? dest = some register) :
      Selects frame (.assign dest rhs ty) (lines ++ [.storeSlot (.ofTy ty) register.slot])
  | call {invocation lines} (isVoid : invocation.returnType.isVoid = true)
      (calls : frame.Calls invocation lines) : Selects frame (.call invocation) lines
  | discardNothing {invocation lines} (isVoid : invocation.returnType.isVoid = true)
      (calls : frame.Calls invocation lines) : Selects frame (.discard (.call invocation)) lines
  | discard {invocation lines} (notVoid : invocation.returnType.isVoid = false)
      (calls : frame.Calls invocation lines) :
      Selects frame (.discard (.call invocation)) (lines ++ [.pop])
  | putField {receiver field ty stored descriptor lines}
      (loads : frame.LoadsAll [receiver, stored] lines)
      (described : frame.code.descriptor ty = .ok descriptor) :
      Selects frame (.putField receiver field ty stored)
        (lines ++ [.putField (frame.code.classPath receiver.ty.base) field descriptor])
  | storeElement {array position stored lines}
      (loads : frame.LoadsAll [array, position, stored] lines) :
      Selects frame (.storeElement array position stored) (lines ++ [.storeElement])
  | label {place} : Selects frame (.label place) [.label place]
  | goto {target} : Selects frame (.goto target) [.goto target]
  | ifLess {left right target lines} (loads : frame.LoadsAll [left, right] lines) :
      Selects frame (.branch (.less left right) target) (lines ++ [.ifLess target])
  | ifNonZero {operand target lines} (loads : frame.Loads operand lines) :
      Selects frame (.branch (.nonZero operand) target) (lines ++ [.ifNonZero target])
  | retVoid {result ty} (isVoid : ty.isVoid = true) : Selects frame (.ret result ty) [.retVoid]
  | ret {operand ty lines} (notVoid : ty.isVoid = false) (loads : frame.Loads operand lines) :
      Selects frame (.ret (some operand) ty) (lines ++ [.ret (.ofTy ty)])

theorem selects_of_select {frame : Frame} {instr : Instr} {lines : List Line}
    (selected : frame.select instr = .ok lines) : frame.Selects instr lines := by
  unfold select at selected
  split at selected
  · simp only [bind_eq_ok_iff] at selected
    obtain ⟨value, valued, slot, found, same⟩ := selected
    obtain ⟨register, registered, rfl⟩ := slot_eq_ok_iff.mp found
    obtain rfl := Except.ok.inj same
    exact .assign (evaluates_of_value valued) registered
  · split at selected
    · next isVoid => exact .call isVoid (calls_of_call selected)
    · cases selected
  · obtain ⟨called, calls, same⟩ := bind_eq_ok_iff.mp selected
    obtain rfl := Except.ok.inj same
    split
    · next isVoid => exact .discardNothing isVoid (calls_of_call calls)
    · next notVoid => exact .discard (Bool.eq_false_iff.mpr notVoid) (calls_of_call calls)
  · cases selected
  · simp only [bind_eq_ok_iff] at selected
    obtain ⟨loaded, loads, line, written, same⟩ := selected
    obtain ⟨descriptor, described, rfl⟩ := map_eq_ok_iff.mp written
    obtain rfl := Except.ok.inj same
    exact .putField (loadsAll_of_loadAll loads) described
  · obtain ⟨loaded, loads, same⟩ := bind_eq_ok_iff.mp selected
    obtain rfl := Except.ok.inj same
    exact .storeElement (loadsAll_of_loadAll loads)
  · obtain rfl := Except.ok.inj selected
    exact .label
  · obtain rfl := Except.ok.inj selected
    exact .goto
  · obtain ⟨loaded, loads, same⟩ := bind_eq_ok_iff.mp selected
    obtain rfl := Except.ok.inj same
    exact .ifLess (loadsAll_of_loadAll loads)
  · obtain ⟨loaded, loads, same⟩ := bind_eq_ok_iff.mp selected
    obtain rfl := Except.ok.inj same
    exact .ifNonZero (loads_of_load loads)
  · unfold Frame.ret at selected
    split at selected
    · next isVoid =>
      obtain rfl := Except.ok.inj selected
      exact .retVoid isVoid
    · next notVoid =>
      split at selected
      · obtain ⟨loaded, loads, same⟩ := bind_eq_ok_iff.mp selected
        obtain rfl := Except.ok.inj same
        exact .ret (Bool.eq_false_iff.mpr notVoid) (loads_of_load loads)
      · cases selected
  · cases selected

end Frame

/-! ### Every line -/

theorem toInt_toInt8 {value : Int32} (low : -128 ≤ value) (high : value ≤ 127) :
    value.toInt8.toInt = value.toInt := by
  rw [Int32.le_iff_toInt_le] at low high
  rw [Int32.toInt_toInt8]
  exact Int.bmod_eq_of_le (by simpa using low) (by simp at high; omega)

/-- A word with a short form has it as a byte too. -/
theorem short_toInt8 {value : Int32} (short : -1 ≤ value ∧ value ≤ 5) :
    -1 ≤ value.toInt8 ∧ value.toInt8 ≤ 5 := by
  have low : -128 ≤ value := Int32.le_trans (by decide) short.1
  have high : value ≤ 127 := Int32.le_trans short.2 (by decide)
  rw [Int8.le_iff_toInt_le, Int8.le_iff_toInt_le, toInt_toInt8 low high]
  rwa [Int32.le_iff_toInt_le, Int32.le_iff_toInt_le] at short

namespace Line

/-- Whether a line is neither a label nor a constant that is part of the instruction's name. -/
def isCommon : Line → Bool
  | .label _ | .iconst _ => false
  | _ => true

theorem isCommon_loadSlot (cell : Cell) (slot : UInt16) : (loadSlot cell slot).isCommon = true := by
  unfold loadSlot
  split <;> rfl

theorem isCommon_storeSlot (cell : Cell) (slot : UInt16) :
    (storeSlot cell slot).isCommon = true := by
  unfold storeSlot
  split <;> rfl

/-- A constant that is part of the instruction's name is one of those that have such a name. -/
def Bounded : Line → Prop
  | .iconst value => -1 ≤ value ∧ value ≤ 5
  | _ => True

theorem bounded_push (value : Int32) : (push value).Bounded := by
  unfold push
  split
  · next short => exact short_toInt8 short
  · split
    · trivial
    · split <;> trivial

theorem push_ne_label (value : Int32) (place : Label) : push value ≠ .label place := by
  unfold push
  split
  · simp
  · split
    · simp
    · split <;> simp

end Line

namespace Frame

section

variable {frame : Frame} {lines : List Line} {holds : Line → Prop}
  (push : ∀ value, holds (.push value)) (common : ∀ line : Line, line.isCommon = true → holds line)
include push common

/-- What holds of every constant that is pushed and of every common line holds of the lines that
push an operand. -/
theorem Loads.forall_mem {operand : Operand} (loads : frame.Loads operand lines) :
    ∀ line ∈ lines, holds line := by
  cases loads with
  | literal => exact List.forall_mem_singleton.mpr (push _)
  | var => exact List.forall_mem_singleton.mpr (common _ (Line.isCommon_loadSlot _ _))
  | field =>
    exact List.forall_mem_cons.mpr
      ⟨common _ rfl, List.forall_mem_singleton.mpr (common _ rfl)⟩
  | this => exact List.forall_mem_singleton.mpr (common _ rfl)

theorem LoadsAll.forall_mem {operands : List Operand} (loads : frame.LoadsAll operands lines) :
    ∀ line ∈ lines, holds line := by
  induction loads with
  | nil => exact List.forall_mem_nil _
  | cons first _ inductionHypothesis =>
    exact List.forall_mem_append.mpr ⟨first.forall_mem push common, inductionHypothesis⟩

omit push in
theorem forall_mem_concat {last : Line} (before : ∀ line ∈ lines, holds line)
    (isLast : last.isCommon = true) : ∀ line ∈ lines ++ [last], holds line :=
  List.forall_mem_append.mpr ⟨before, List.forall_mem_singleton.mpr (common _ isLast)⟩

theorem Targets.forall_mem {target : CallTarget} {owner : String}
    (targets : frame.Targets target lines owner) : ∀ line ∈ lines, holds line := by
  cases targets with
  | this => exact List.forall_mem_singleton.mpr (common _ rfl)
  | receiver loads => exact loads.forall_mem push common
  | ofClass => exact List.forall_mem_nil _

theorem Calls.forall_mem {call : Call} (calls : frame.Calls call lines) :
    ∀ line ∈ lines, holds line := by
  cases calls with
  | construct _ targets =>
    refine List.forall_mem_append.mpr ⟨targets.forall_mem push common, ?_⟩
    exact List.forall_mem_cons.mpr ⟨common _ rfl, List.forall_mem_singleton.mpr (common _ rfl)⟩
  | virtual _ _ targets loads =>
    refine forall_mem_concat common (List.forall_mem_append.mpr ?_) rfl
    exact ⟨targets.forall_mem push common, loads.forall_mem push common⟩
  | static _ _ loads => exact forall_mem_concat common (loads.forall_mem push common) rfl

theorem Evaluates.forall_mem {rhs : Instr} (evaluates : frame.Evaluates rhs lines) :
    ∀ line ∈ lines, holds line := by
  cases evaluates with
  | value loads => exact loads.forall_mem push common
  | newObject =>
    exact List.forall_mem_cons.mpr ⟨common _ rfl, List.forall_mem_singleton.mpr (common _ rfl)⟩
  | call calls => exact calls.forall_mem push common
  | arith loads | loadElement loads =>
    exact forall_mem_concat common (loads.forall_mem push common) rfl
  | newArray loads | getField loads | arrayLength loads =>
    exact forall_mem_concat common (loads.forall_mem push common) rfl

/-- What holds of every constant that is pushed and of every common line holds of every line but a
label. -/
theorem Selects.forall_mem {instr : Instr} (selects : frame.Selects instr lines)
    (other : ∀ place, instr ≠ .label place) : ∀ line ∈ lines, holds line := by
  cases selects with
  | assign evaluates =>
    exact forall_mem_concat common (evaluates.forall_mem push common) (Line.isCommon_storeSlot _ _)
  | call _ calls | discardNothing _ calls => exact calls.forall_mem push common
  | discard _ calls => exact forall_mem_concat common (calls.forall_mem push common) rfl
  | putField loads | storeElement loads | ifLess loads =>
    exact forall_mem_concat common (loads.forall_mem push common) rfl
  | ifNonZero loads | ret _ loads =>
    exact forall_mem_concat common (loads.forall_mem push common) rfl
  | label => exact absurd rfl (other _)
  | goto | retVoid => exact List.forall_mem_singleton.mpr (common _ rfl)

end

/-- Only a label becomes a label. -/
theorem Selects.eq_label_of_mem {frame : Frame} {instr : Instr} {lines : List Line} {place : Label}
    (selects : frame.Selects instr lines) (member : .label place ∈ lines) :
    instr = .label place := by
  by_cases isLabel : ∃ other, instr = .label other
  · obtain ⟨other, rfl⟩ := isLabel
    cases selects
    rw [Line.label.inj (List.mem_singleton.mp member)]
  · have unlike : ∀ line ∈ lines, line ≠ .label place := by
      refine selects.forall_mem (fun value => Line.push_ne_label value place) ?_
        fun other same => isLabel ⟨other, same⟩
      rintro _ isCommon rfl
      cases isCommon
    exact absurd rfl (unlike _ member)

/-! ### Blocks -/

/-- The lines of a body are the blocks of its instructions. -/
theorem blocks_of_lines {frame : Frame} {lines : List Line} (selected : frame.lines = .ok lines) :
    ∃ blocks, List.Forall₂ (fun instr block => frame.select instr = .ok block) frame.method.body
      blocks ∧ lines = blocks.flatten := by
  obtain ⟨blocks, each, rfl⟩ := map_eq_ok_iff.mp selected
  exact ⟨blocks, mapM_eq_ok_iff.mp each, rfl⟩

/-- Selection bounds the constants that are part of an instruction's name. -/
theorem bounded_of_lines {frame : Frame} {lines : List Line} (selected : frame.lines = .ok lines) :
    ∀ line ∈ lines, line.Bounded := by
  obtain ⟨blocks, each, rfl⟩ := blocks_of_lines selected
  clear selected
  have common (line : Line) (isCommon : line.isCommon = true) : line.Bounded := by
    cases line with
    | iconst => cases isCommon
    | _ => trivial
  generalize frame.method.body = code at each
  induction each with
  | nil => exact List.forall_mem_nil _
  | @cons instr block _ _ first _ inductionHypothesis =>
    refine List.forall_mem_append.mpr ⟨?_, inductionHypothesis⟩
    have selects := selects_of_select first
    by_cases isLabel : ∃ place, instr = .label place
    · obtain ⟨place, rfl⟩ := isLabel
      cases selects
      exact List.forall_mem_singleton.mpr trivial
    · exact selects.forall_mem Line.bounded_push common fun place same => isLabel ⟨place, same⟩

end Frame

/-- Where the block of the instruction at a position begins. -/
def offset (blocks : List (List Line)) (position : Nat) : Nat :=
  (blocks.take position).flatten.length

theorem offset_succ {blocks : List (List Line)} {position : Nat} {block : List Line}
    (found : blocks[position]? = some block) :
    offset blocks (position + 1) = offset blocks position + block.length := by
  rw [offset, List.take_add_one, found, Option.toList_some, List.flatten_append, List.length_append,
    List.flatten_singleton]
  rfl

theorem standsAt_block {blocks : List (List Line)} {position : Nat} {block : List Line}
    (found : blocks[position]? = some block) :
    StandsAt blocks.flatten (offset blocks position) block := by
  obtain ⟨bound, rfl⟩ := List.getElem?_eq_some_iff.mp found
  have split : blocks.flatten = (blocks.take position).flatten ++
      (blocks[position] ++ (blocks.drop (position + 1)).flatten) := by
    rw [← List.flatten_cons, ← List.drop_eq_getElem_cons bound, ← List.flatten_append,
      List.take_append_drop]
  rw [split, offset, ← Nat.zero_add (List.length _)]
  exact (StandsAt.whole _).right.left

/-- Behind the last instruction the lines end. -/
theorem offset_of_length_le {blocks : List (List Line)} {position : Nat}
    (le : blocks.length ≤ position) : offset blocks position = blocks.flatten.length := by
  rw [offset, List.take_of_length_le le]

/-- The block of an instruction is at its position. -/
theorem block_of_instr {frame : Frame} {code : List Instr} {blocks : List (List Line)}
    (selects : List.Forall₂ frame.Selects code blocks) {position : Nat} {instr : Instr}
    (fetched : code[position]? = some instr) :
    ∃ block, blocks[position]? = some block ∧ frame.Selects instr block := by
  induction selects generalizing position with
  | nil => cases fetched
  | cons first rest inductionHypothesis =>
    cases position with
    | zero =>
      obtain rfl := Option.some.inj fetched
      exact ⟨_, rfl, first⟩
    | succ position => exact inductionHypothesis fetched

/-- A label is found at the offset of the instruction that places it. -/
theorem linePosition?_eq {frame : Frame} {code : List Instr} {blocks : List (List Line)}
    (selects : List.Forall₂ frame.Selects code blocks) (place : Label) :
    linePosition? blocks.flatten place = (labelPosition? code place).map (offset blocks) := by
  induction selects with
  | nil => rfl
  | @cons instr block code blocks first rest inductionHypothesis =>
    rw [linePosition?, labelPosition?, List.flatten_cons, List.findIdx?_append, List.findIdx?_cons]
    by_cases here : instr = .label place
    · subst here
      cases first
      simp [offset]
    · have absent : block.findIdx? (· == .label place) = none := by
        rw [List.findIdx?_eq_none_iff]
        intro line member
        rw [beq_eq_false_iff_ne]
        rintro rfl
        exact here (first.eq_label_of_mem member)
      rw [linePosition?, labelPosition?] at inductionHypothesis
      rw [absent, Option.none_or, inductionHypothesis, if_neg (by simpa using here), Option.map_map,
        Option.map_map]
      refine congrArg (Option.map · _) (funext fun position => ?_)
      simp only [Function.comp_apply, offset, List.take_succ_cons, List.flatten_cons,
        List.length_append]
      omega

end Jasmin

end JavaMinus
