/-
This file says what a static method loads. The receiver of an instance method is
in the first register, and assembly pushes it with the same line as any variable
that is there: nothing in the text tells the two apart. In the lines of detached
code each line that pushes a register pushes that of a variable which an
instruction reads, and the pushes come in the order in which the variables are
read. Some variables that are named are not pushed: the result of a method that
yields nothing, and the arguments of a constructor.

If the check on receivers reports no error, the code of static methods is detached.
So where a static method pushes the first register, a variable is in it.
-/

import JavaMinus.Proofs.Allocation
import JavaMinus.Proofs.Jasmin.Selection
import JavaMinus.Proofs.Lowering.Detachment

namespace JavaMinus

namespace Jasmin

/-! ### Lines that push a register -/

namespace Line

/-- Whether a line pushes a register. -/
def isLoad : Line → Bool
  | .shortLoad _ _ | .load _ _ => true
  | _ => false

theorem isLoad_loadSlot (cell : Cell) (slot : UInt16) : (loadSlot cell slot).isLoad = true := by
  rw [loadSlot]
  split <;> rfl

theorem isLoad_storeSlot (cell : Cell) (slot : UInt16) : (storeSlot cell slot).isLoad = false := by
  rw [storeSlot]
  split <;> rfl

theorem isLoad_push (value : Int32) : (push value).isLoad = false := by
  rw [push]
  split_ifs <;> rfl

/-- Only the first register is pushed as the receiver is. -/
theorem slot_eq_zero {cell : Cell} {slot : UInt16} (same : loadSlot cell slot = .loadThis) :
    slot = 0 := by
  rw [loadSlot, loadThis] at same
  split at same
  · injection same with _ sameSlot
    have sameNumber := congrArg Fin.val sameSlot
    exact UInt16.toNat_inj.mp sameNumber
  · cases same

/-- Only the push of the first register, as a reference, is printed as one. -/
theorem eq_loadThis_of_mnemonic {line : Line} (printed : line.mnemonic = "aload_0") :
    line = .loadThis := by
  have chars := congrArg String.toList printed
  rw [mnemonic.eq_def] at chars
  cases line with
  | shortLoad cell slot =>
    cases cell with
    | word => simp [Cell.letter, ToString.toString] at chars
    | reference =>
      have isFirst : ∀ short : Fin 4,
          (shortLoad .reference short).mnemonic = "aload_0" → short = 0 := by decide
      exact congrArg (shortLoad .reference) (isFirst slot printed)
  | label place =>
    -- The text before the colon is arbitrary, so only the end of the line tells it apart.
    have last := congrArg List.getLast? chars
    simp [ToString.toString] at last
  | iconst value =>
    by_cases isMinusOne : value = -1 <;> simp [isMinusOne, ToString.toString] at chars
  | load cell | shortStore cell | store cell | ret cell =>
    cases cell <;> simp [Cell.letter, ToString.toString] at chars
  | arith op => cases op <;> simp [arithName] at chars
  | _ => simp [ToString.toString] at chars

end Line

namespace Frame

/-- The line pushes the register of the variable. -/
def Fetches (frame : Frame) (binding : Binding) (line : Line) : Prop :=
  ∃ slot, frame.slot binding.name = .ok slot ∧ line = .loadSlot (.ofTy binding.ty) slot

/-- The lines that push a register push those of some of the variables, in order. -/
def LoadsFrom (frame : Frame) (bindings : List Binding) (lines : List Line) : Prop :=
  ∃ loaded, loaded.Sublist bindings ∧
    List.Forall₂ frame.Fetches loaded (lines.filter Line.isLoad)

namespace LoadsFrom

variable {frame : Frame} {bindings others : List Binding} {lines rest : List Line}

/-- Lines that push no register. -/
theorem quiet (silent : ∀ line ∈ lines, line.isLoad = false) : frame.LoadsFrom [] lines := by
  refine ⟨[], .slnil, ?_⟩
  rw [List.filter_eq_nil_iff.mpr fun line member => Bool.eq_false_iff.mp (silent line member)]
  exact .nil

theorem append (first : frame.LoadsFrom bindings lines) (second : frame.LoadsFrom others rest) :
    frame.LoadsFrom (bindings ++ others) (lines ++ rest) := by
  obtain ⟨loaded, fromBindings, fetched⟩ := first
  obtain ⟨otherLoaded, fromOthers, otherFetched⟩ := second
  refine ⟨loaded ++ otherLoaded, fromBindings.append fromOthers, ?_⟩
  rw [List.filter_append]
  exact List.rel_append fetched otherFetched

theorem followed {last : Line} (first : frame.LoadsFrom bindings lines)
    (silent : last.isLoad = false) : frame.LoadsFrom bindings (lines ++ [last]) := by
  have all := first.append (.quiet (List.forall_mem_singleton.mpr silent))
  rwa [List.append_nil] at all

theorem mono (first : frame.LoadsFrom bindings lines) (named : bindings.Sublist others) :
    frame.LoadsFrom others lines := by
  obtain ⟨loaded, fromBindings, fetched⟩ := first
  exact ⟨loaded, fromBindings.trans named, fetched⟩

/-- Every line that pushes a register pushes that of one of the variables. -/
theorem fetches (loads : frame.LoadsFrom bindings lines) {line : Line} (member : line ∈ lines)
    (isLoad : line.isLoad = true) : ∃ binding ∈ bindings, frame.Fetches binding line := by
  obtain ⟨loaded, fromBindings, fetched⟩ := loads
  obtain ⟨sameLength, each⟩ := List.forall₂_iff_get.mp fetched
  obtain ⟨position, inRange, rfl⟩ :=
    List.mem_iff_getElem.mp (List.mem_filter.mpr ⟨member, isLoad⟩)
  have inLoaded : position < loaded.length := sameLength ▸ inRange
  exact ⟨loaded[position], fromBindings.subset (List.getElem_mem inLoaded),
    each position inLoaded inRange⟩

end LoadsFrom

/-! ### The lines of detached code -/

variable {frame : Frame}

theorem Loads.loadsFrom {operand : Operand} {lines : List Line}
    (loads : frame.Loads operand lines) (detached : operand.isDetached = true) :
    frame.LoadsFrom operand.sources lines := by
  cases loads with
  | literal => exact .quiet (List.forall_mem_singleton.mpr (Line.isLoad_push _))
  | @var name ty register found =>
    refine ⟨[⟨name, ty⟩], .refl _, ?_⟩
    rw [List.filter_singleton, Line.isLoad_loadSlot]
    exact .cons ⟨register.slot, slot_eq_ok_iff.mpr ⟨register, found, rfl⟩, rfl⟩ .nil
  | field => cases detached
  | this => cases detached

theorem LoadsAll.loadsFrom {operands : List Operand} {lines : List Line}
    (loads : frame.LoadsAll operands lines)
    (detached : ∀ operand ∈ operands, operand.isDetached = true) :
    frame.LoadsFrom (operands.flatMap Operand.sources) lines := by
  induction loads with
  | nil => exact .quiet (List.forall_mem_nil _)
  | cons first _ inductionHypothesis =>
    obtain ⟨firstDetached, restDetached⟩ := List.forall_mem_cons.mp detached
    exact (first.loadsFrom firstDetached).append (inductionHypothesis restDetached)

theorem LoadsAll.single {operand : Operand} {lines : List Line}
    (loads : frame.Loads operand lines) : frame.LoadsAll [operand] lines := by
  have all := LoadsAll.cons loads .nil
  rwa [List.append_nil] at all

theorem Targets.loadsFrom {target : CallTarget} {lines : List Line} {owner : String}
    (targets : frame.Targets target lines owner) (notThis : target ≠ .this)
    (detached : ∀ operand ∈ target.operands, operand.isDetached = true) :
    frame.LoadsFrom (target.operands.flatMap Operand.sources) lines := by
  cases targets with
  | this => exact absurd rfl notThis
  | receiver loads =>
    rw [CallTarget.operands, List.flatMap_singleton]
    exact loads.loadsFrom (detached _ List.mem_cons_self)
  | ofClass => exact .quiet (List.forall_mem_nil _)

theorem Calls.loadsFrom {call : Call} {lines : List Line} (calls : frame.Calls call lines)
    (detached : call.Detached) :
    frame.LoadsFrom (call.operands.flatMap Operand.sources) lines := by
  obtain ⟨inTarget, inArgs⟩ := List.forall_mem_append.mp detached.operands
  rw [Call.operands, List.flatMap_append]
  cases calls with
  | @construct target owner _ targets =>
    have dropped : frame.LoadsFrom (call.args.flatMap Operand.sources)
        [.construct (frame.code.classPath owner), .pop] :=
      (LoadsFrom.quiet (by simp [Line.isLoad])).mono (List.nil_sublist _)
    exact (targets.loadsFrom detached.target inTarget).append dropped
  | virtual _ _ targets loads =>
    have pushed := (targets.loadsFrom detached.target inTarget).append (loads.loadsFrom inArgs)
    exact pushed.followed rfl
  | static _ onClass loads =>
    rw [onClass]
    exact (loads.loadsFrom inArgs).followed rfl

theorem Evaluates.loadsFrom {rhs : Instr} {lines : List Line}
    (evaluates : frame.Evaluates rhs lines) (detached : rhs.Detached) :
    frame.LoadsFrom rhs.sources lines := by
  have inOperands := detached.operands
  cases evaluates with
  | value loads => exact (LoadsAll.single loads).loadsFrom inOperands
  | newObject => exact .quiet (by simp [Line.isLoad])
  | call calls => exact calls.loadsFrom ⟨detached.calls _ List.mem_cons_self, inOperands⟩
  | arith loads | loadElement loads => exact (loads.loadsFrom inOperands).followed rfl
  | newArray loads | getField loads | arrayLength loads =>
    exact ((LoadsAll.single loads).loadsFrom inOperands).followed rfl

theorem Selects.loadsFrom {instr : Instr} {lines : List Line}
    (selects : frame.Selects instr lines) (detached : instr.Detached) :
    frame.LoadsFrom instr.sources lines := by
  have inOperands := detached.operands
  cases selects with
  | assign evaluates =>
    exact (evaluates.loadsFrom ⟨inOperands, detached.fields, detached.calls⟩).followed
      (Line.isLoad_storeSlot _ _)
  | call _ calls | discardNothing _ calls =>
    exact calls.loadsFrom ⟨detached.calls _ List.mem_cons_self, inOperands⟩
  | discard _ calls =>
    exact (calls.loadsFrom ⟨detached.calls _ List.mem_cons_self, inOperands⟩).followed rfl
  | putField loads | storeElement loads | ifLess loads =>
    exact (loads.loadsFrom inOperands).followed rfl
  | ifNonZero loads | ret _ loads =>
    exact ((LoadsAll.single loads).loadsFrom inOperands).followed rfl
  | label | goto => exact .quiet (by simp [Line.isLoad])
  | retVoid => exact (LoadsFrom.quiet (by simp [Line.isLoad])).mono (List.nil_sublist _)

/-- The lines of detached code push the variables that its instructions read, in order. -/
theorem loadsFrom_of_lines {lines : List Line} (selected : frame.lines = .ok lines)
    (detached : Detached frame.method.body) :
    frame.LoadsFrom (frame.method.body.flatMap Instr.sources) lines := by
  obtain ⟨blocks, each, rfl⟩ := blocks_of_lines selected
  clear selected
  generalize frame.method.body = code at each detached ⊢
  induction each with
  | nil => exact .quiet (List.forall_mem_nil _)
  | cons first _ inductionHypothesis =>
    obtain ⟨firstDetached, restDetached⟩ := detached_cons.mp detached
    exact ((selects_of_select first).loadsFrom firstDetached).append
      (inductionHypothesis restDetached)

end Frame

end Jasmin

open Jasmin

/-- If the check on receivers reports no error, a static method never touches a receiver: its code
has no operand that is the receiver or a field, no access to a field and no call on the receiver,
and its lines push nothing but variables that the code reads, in order. So each line that is printed
as a push of the first register, as a reference, pushes a variable that is in it. -/
theorem ClassTable.static_of_clean {table : ClassTable} {program : Program} {before : Counters}
    {code : ClassCode} {entry : Option String} {notes : List Diagnostic}
    (ran : (Check.thisUsage entry).run program table = .ok notes)
    (clean : ∀ note ∈ notes, note.isError = false)
    (lowered : (table.lower program before).1 = .ok code) :
    ∀ method ∈ code.methods, method.isStatic = true →
      (∀ instr ∈ method.body, instr.Detached) ∧
      ∀ lines, Frame.lines ⟨code, method⟩ = .ok lines →
        Frame.LoadsFrom ⟨code, method⟩ (method.body.flatMap Instr.sources) lines ∧
        ∀ line ∈ lines, line.mnemonic = "aload_0" →
          ∃ binding ∈ method.body.flatMap Instr.sources,
            Frame.slot ⟨code, method⟩ binding.name = .ok 0 ∧
              line = .loadSlot (.ofTy binding.ty) 0 := by
  intro method member isStatic
  have detached := detached_of_lower ran clean lowered member isStatic
  refine ⟨detached, fun lines selected => ?_⟩
  have loads := Frame.loadsFrom_of_lines selected detached
  refine ⟨loads, fun line inLines printed => ?_⟩
  obtain rfl := Line.eq_loadThis_of_mnemonic printed
  obtain ⟨binding, named, slot, found, same⟩ := loads.fetches inLines rfl
  obtain rfl := Line.slot_eq_zero same.symm
  exact ⟨binding, named, found, same⟩

/-- A class with a field, and with a static method whose parameter has the same name. -/
def Program.namesake : Program where
  imports := []
  classDecl :=
    { name := "Row"
      superClass := none
      fields := [⟨.ofTy .nowhere .intArray, "cells", .nowhere⟩]
      methods :=
        [{ name := "size"
           isPublic := true
           isStatic := true
           returnType := .ofTy .nowhere .int
           params := [⟨.ofTy .nowhere .intArray, "cells", false, .nowhere⟩]
           locals := []
           body := [.ret .nowhere (some (.length .nowhere (.name .nowhere "cells")))]
           pos := .nowhere }]
      pos := .nowhere }
  pos := .nowhere

/-- The method pushes the first register, and what it pushes there is its parameter. -/
theorem static_of_clean_namesake :
    ∃ code method lines,
      (Check.thisUsage (some "main")).run .namesake (.ofProgram .namesake) = .ok [] ∧
      ((ClassTable.ofProgram .namesake).lower .namesake {}).1 = .ok code ∧
      code.methods = [method] ∧ method.isStatic = true ∧ (∀ instr ∈ method.body, instr.Detached) ∧
      Frame.lines ⟨code, method⟩ = .ok lines ∧ "aload_0" ∈ lines.map Line.mnemonic ∧
      ∃ binding ∈ method.body.flatMap Instr.sources,
        Frame.slot ⟨code, method⟩ binding.name = .ok 0 := by
  have ran : (Check.thisUsage (some "main")).run .namesake (.ofProgram .namesake) = .ok [] := rfl
  obtain ⟨code, method, lines, lowered, isOnly, isStatic, selected, inLines, printed⟩ :
      ∃ code method lines, ((ClassTable.ofProgram .namesake).lower .namesake {}).1 = .ok code ∧
        code.methods = [method] ∧ method.isStatic = true ∧ Frame.lines ⟨code, method⟩ = .ok lines ∧
        .loadThis ∈ lines ∧ Line.loadThis.mnemonic = "aload_0" :=
    ⟨_, _, _, rfl, rfl, rfl, rfl, List.mem_cons_self, rfl⟩
  obtain ⟨detached, loads⟩ := ClassTable.static_of_clean ran (List.forall_mem_nil _) lowered method
    (isOnly ▸ List.mem_cons_self) isStatic
  obtain ⟨binding, named, found, -⟩ := (loads lines selected).2 _ inLines printed
  exact ⟨code, method, lines, ran, lowered, isOnly, isStatic, detached, selected,
    List.mem_map.mpr ⟨_, inLines, printed⟩, binding, named, found⟩

end JavaMinus
