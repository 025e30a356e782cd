/-
This file says what lines take registers for. A line that pushes a register or pops
into one has a letter that tells whether a word or a reference is there. The letter
comes from the type that a variable has where an instruction names it, and that is
the type its register is recorded with. So as long as there are no more registers
than slots, all lines on one slot have the same letter.

The receiver is the exception. It is pushed from the first register as a reference,
whatever is recorded there. In an instance method the receiver is there, but nothing
keeps a static method from reading one, and there the first register may hold a word.
-/

import JavaMinus.Proofs.Jasmin.Loads
import JavaMinus.Proofs.Lowering.VariableTypes

namespace JavaMinus

namespace Jasmin

/-! ### Lines on registers -/

namespace Line

/-- What a line takes the register for that it pushes or pops into, and the slot of the register. -/
def access? : Line → Option (Cell × Nat)
  | .shortLoad cell slot | .shortStore cell slot => some (cell, slot.val)
  | .load cell slot | .store cell slot => some (cell, slot.toNat)
  | _ => none

theorem access?_loadSlot (cell : Cell) (slot : UInt16) :
    (loadSlot cell slot).access? = some (cell, slot.toNat) := by
  rw [loadSlot]
  split <;> rfl

theorem access?_storeSlot (cell : Cell) (slot : UInt16) :
    (storeSlot cell slot).access? = some (cell, slot.toNat) := by
  rw [storeSlot]
  split <;> rfl

theorem access?_push (value : Int32) : (push value).access? = none := by
  rw [push]
  split_ifs <;> rfl

end Line

namespace Frame

/-- The variable has a register with this slot, and its type demands this cell. -/
def Occupies (frame : Frame) (binding : Binding) (access : Cell × Nat) : Prop :=
  ∃ register, frame.method.registers.get? binding.name = some register ∧
    access = (.ofTy binding.ty, register.slot.toNat)

/-- The line pushes the receiver, or it is on the register of one of the variables, or on none. -/
def Touches (frame : Frame) (bindings : List Binding) (line : Line) : Prop :=
  ∀ access, line.access? = some access →
    line = .loadThis ∨ ∃ binding ∈ bindings, frame.Occupies binding access

variable {frame : Frame} {bindings : List Binding}

theorem touches_of_quiet {line : Line} (quiet : line.access? = none) :
    frame.Touches bindings line := by
  intro access same
  rw [quiet] at same
  cases same

theorem touches_loadThis : frame.Touches bindings .loadThis := fun _ _ => .inl rfl

/-- A line on the register of a variable. -/
theorem touches_of_access {line : Line} {binding : Binding} {register : Register}
    (named : binding ∈ bindings)
    (found : frame.method.registers.get? binding.name = some register)
    (access : line.access? = some (.ofTy binding.ty, register.slot.toNat)) :
    frame.Touches bindings line := by
  intro other same
  rw [access] at same
  exact .inr ⟨binding, named, register, found, (Option.some.inj same).symm⟩

/-- Lines with one more behind them that is on no register. -/
theorem touches_concat {lines : List Line} {last : Line}
    (touches : ∀ line ∈ lines, frame.Touches bindings line) (quiet : last.access? = none) :
    ∀ line ∈ lines ++ [last], frame.Touches bindings line :=
  List.forall_mem_append.mpr
    ⟨touches, List.forall_mem_singleton.mpr (touches_of_quiet quiet)⟩

/-! ### The lines of code -/

theorem Loads.touches {operand : Operand} {lines : List Line} (loads : frame.Loads operand lines)
    (named : operand.sources ⊆ bindings) : ∀ line ∈ lines, frame.Touches bindings line := by
  cases loads with
  | literal => exact List.forall_mem_singleton.mpr (touches_of_quiet (Line.access?_push _))
  | var found =>
    exact List.forall_mem_singleton.mpr
      (touches_of_access (named List.mem_cons_self) found (Line.access?_loadSlot _ _))
  | field =>
    exact List.forall_mem_cons.mpr
      ⟨touches_loadThis, List.forall_mem_singleton.mpr (touches_of_quiet rfl)⟩
  | this => exact List.forall_mem_singleton.mpr touches_loadThis

theorem LoadsAll.touches {operands : List Operand} {lines : List Line}
    (loads : frame.LoadsAll operands lines)
    (named : operands.flatMap Operand.sources ⊆ bindings) :
    ∀ line ∈ lines, frame.Touches bindings line := by
  induction loads with
  | nil => exact List.forall_mem_nil _
  | cons first _ inductionHypothesis =>
    rw [List.flatMap_cons, List.append_subset] at named
    exact List.forall_mem_append.mpr ⟨first.touches named.1, inductionHypothesis named.2⟩

theorem Targets.touches {target : CallTarget} {lines : List Line} {owner : String}
    (targets : frame.Targets target lines owner)
    (named : target.operands.flatMap Operand.sources ⊆ bindings) :
    ∀ line ∈ lines, frame.Touches bindings line := by
  cases targets with
  | this => exact List.forall_mem_singleton.mpr touches_loadThis
  | receiver loads => exact (LoadsAll.single loads).touches named
  | ofClass => exact List.forall_mem_nil _

theorem Calls.touches {call : Call} {lines : List Line} (calls : frame.Calls call lines)
    (named : call.operands.flatMap Operand.sources ⊆ bindings) :
    ∀ line ∈ lines, frame.Touches bindings line := by
  rw [Call.operands, List.flatMap_append, List.append_subset] at named
  cases calls with
  | construct _ targets =>
    refine List.forall_mem_append.mpr ⟨targets.touches named.1, List.forall_mem_cons.mpr ?_⟩
    exact ⟨touches_of_quiet rfl, List.forall_mem_singleton.mpr (touches_of_quiet rfl)⟩
  | virtual _ _ targets loads =>
    exact touches_concat
      (List.forall_mem_append.mpr ⟨targets.touches named.1, loads.touches named.2⟩) rfl
  | static _ _ loads => exact touches_concat (loads.touches named.2) rfl

theorem Evaluates.touches {rhs : Instr} {lines : List Line}
    (evaluates : frame.Evaluates rhs lines) (named : rhs.sources ⊆ bindings) :
    ∀ line ∈ lines, frame.Touches bindings line := by
  cases evaluates with
  | value loads => exact (LoadsAll.single loads).touches named
  | newObject =>
    exact List.forall_mem_cons.mpr
      ⟨touches_of_quiet rfl, List.forall_mem_singleton.mpr (touches_of_quiet rfl)⟩
  | call calls => exact calls.touches named
  | arith loads | loadElement loads => exact touches_concat (loads.touches named) rfl
  | newArray loads | getField loads | arrayLength loads =>
    exact touches_concat ((LoadsAll.single loads).touches named) rfl

theorem Selects.touches {instr : Instr} {lines : List Line} (selects : frame.Selects instr lines)
    (named : instr.mentions ⊆ bindings) : ∀ line ∈ lines, frame.Touches bindings line := by
  rw [Instr.mentions_eq, List.append_subset] at named
  obtain ⟨assigned, isRead⟩ := named
  cases selects with
  | assign evaluates found =>
    refine List.forall_mem_append.mpr
      ⟨evaluates.touches isRead, List.forall_mem_singleton.mpr ?_⟩
    exact touches_of_access (assigned List.mem_cons_self) found (Line.access?_storeSlot _ _)
  | call _ calls | discardNothing _ calls => exact calls.touches isRead
  | discard _ calls => exact touches_concat (calls.touches isRead) rfl
  | putField loads | storeElement loads | ifLess loads =>
    exact touches_concat (loads.touches isRead) rfl
  | ifNonZero loads | ret _ loads =>
    exact touches_concat ((LoadsAll.single loads).touches isRead) rfl
  | label | goto | retVoid => exact List.forall_mem_singleton.mpr (touches_of_quiet rfl)

/-- The lines of a body are on the registers of the variables that its instructions name, but for
those that push the receiver. -/
theorem touches_of_lines {lines : List Line} (selected : frame.lines = .ok lines)
    (named : frame.method.body.flatMap Instr.mentions ⊆ bindings) :
    ∀ line ∈ lines, frame.Touches bindings line := by
  obtain ⟨blocks, each, rfl⟩ := blocks_of_lines selected
  clear selected
  generalize frame.method.body = code at each named
  induction each with
  | nil => exact List.forall_mem_nil _
  | cons first _ inductionHypothesis =>
    rw [List.flatMap_cons, List.append_subset] at named
    exact List.forall_mem_append.mpr
      ⟨(selects_of_select first).touches named.1, inductionHypothesis named.2⟩

/-- Detached code pushes no receiver: all its lines are on registers of variables. -/
theorem occupies_of_detached {lines : List Line} (selected : frame.lines = .ok lines)
    (detached : Detached frame.method.body) {line : Line} (member : line ∈ lines)
    {access : Cell × Nat} (accesses : line.access? = some access) :
    ∃ binding ∈ frame.method.body.flatMap Instr.mentions, frame.Occupies binding access := by
  rcases touches_of_lines selected (List.Subset.refl _) line member access accesses with
    rfl | occupies
  · obtain ⟨binding, isSource, slot, found, same⟩ :=
      (loadsFrom_of_lines selected detached).fetches member rfl
    -- The line reads as a push of the receiver, but it pushes a variable in the first register.
    obtain ⟨instr, inBody, isRead⟩ := List.mem_flatMap.mp isSource
    obtain ⟨register, registered, rfl⟩ := slot_eq_ok_iff.mp found
    refine ⟨binding, List.mem_flatMap.mpr ⟨instr, inBody, ?_⟩, register, registered, ?_⟩
    · rw [Instr.mentions_eq]
      exact List.mem_append_right _ isRead
    · rw [same, Line.access?_loadSlot] at accesses
      exact (Option.some.inj accesses).symm
  · exact occupies

/-- Each line on a register is on that of a variable, or the code reads a receiver and the line pushes
it. -/
theorem occupies_or_receiver {lines : List Line} (selected : frame.lines = .ok lines) {line : Line}
    (member : line ∈ lines) {access : Cell × Nat} (accesses : line.access? = some access) :
    (∃ binding ∈ frame.method.body.flatMap Instr.mentions, frame.Occupies binding access) ∨
      line = .loadThis ∧ ¬Detached frame.method.body := by
  by_cases detached : Detached frame.method.body
  · exact .inl (occupies_of_detached selected detached member accesses)
  · rcases touches_of_lines selected (List.Subset.refl _) line member access accesses with
      isReceiver | occupies
    · exact .inr ⟨isReceiver, detached⟩
    · exact .inl occupies

end Frame

end Jasmin

open Jasmin

/-! ### One cell for each slot -/

/-- The code of a static method reads a receiver, and a word is recorded for the first slot, from
which the receiver is pushed. -/
structure MethodCode.Adrift (method : MethodCode) : Prop where
  isStatic : method.isStatic = true
  attached : ¬Detached method.body
  word : ∃ name register, method.registers.get? name = some register ∧ register.slot = 0 ∧
    register.ty.isWord = true

namespace Scope

variable {scope : Scope} {body : List Stmt} {method : MethodCode}

theorem Compiles.valid_registers (compiles : scope.Compiles body method) :
    method.registers.Valid := by
  rw [compiles.registers_eq]
  exact Registers.valid_allocate _ _ _

/-- The receiver of an instance method is in the first slot. -/
theorem Compiles.get?_this (compiles : scope.Compiles body method)
    (inInstance : method.isStatic = false) :
    method.registers.get? "this" = some ⟨0, scope.table.classType⟩ := by
  rw [compiles.isStatic_eq] at inInstance
  rw [compiles.registers_eq, receiverType?, inInstance]
  exact Registers.get?_this _ _ _

/-- While there are no more registers than slots, variables in one slot have one name. -/
theorem Compiles.name_eq (compiles : scope.Compiles body method)
    (few : method.registers.size ≤ 65536) {first second : String}
    {firstRegister secondRegister : Register}
    (firstFound : method.registers.get? first = some firstRegister)
    (secondFound : method.registers.get? second = some secondRegister)
    (same : firstRegister.slot.toNat = secondRegister.slot.toNat) : first = second :=
  compiles.valid_registers.slot_injective few firstFound secondFound (UInt16.toNat_inj.mp same)

/-- So variables in one slot have one cell. -/
theorem Compiles.cell_eq (compiles : scope.Compiles body method)
    (few : method.registers.size ≤ 65536) {code : ClassCode} {first second : Binding}
    (inFirst : first ∈ method.body.flatMap Instr.mentions)
    (inSecond : second ∈ method.body.flatMap Instr.mentions) {slot : Nat}
    {firstCell secondCell : Cell}
    (firstOccupies : Frame.Occupies ⟨code, method⟩ first (firstCell, slot))
    (secondOccupies : Frame.Occupies ⟨code, method⟩ second (secondCell, slot)) :
    firstCell = secondCell := by
  obtain ⟨register, found, same⟩ := firstOccupies
  obtain ⟨otherRegister, otherFound, otherSame⟩ := secondOccupies
  obtain ⟨rfl, rfl⟩ := Prod.mk.inj same
  obtain ⟨rfl, sameSlot⟩ := Prod.mk.inj otherSame
  rw [compiles.ty_eq inFirst inSecond (compiles.name_eq few found otherFound sameSlot)]

/-- And in an instance method no variable is in the first slot, where the receiver is. -/
theorem Compiles.not_occupies_zero (compiles : scope.Compiles body method)
    (inInstance : method.isStatic = false) (unshadowed : "this" ∉ scope.declared)
    (few : method.registers.size ≤ 65536) {code : ClassCode} {binding : Binding}
    (mentioned : binding ∈ method.body.flatMap Instr.mentions) (cell : Cell) :
    ¬ Frame.Occupies ⟨code, method⟩ binding (cell, 0) := by
  rintro ⟨register, found, same⟩
  have receiver := compiles.get?_this inInstance
  have isThis := compiles.name_eq few found receiver (Prod.mk.inj same).2.symm
  exact compiles.name_ne_this unshadowed mentioned isThis

/-- A variable in the first slot has the cell of the receiver that is pushed from there, unless a
static method takes a word for its receiver. -/
theorem Compiles.cell_eq_reference (compiles : scope.Compiles body method)
    (unshadowed : method.isStatic = false → "this" ∉ scope.declared)
    (few : method.registers.size ≤ 65536) (attached : ¬Detached method.body) {code : ClassCode}
    {binding : Binding} (mentioned : binding ∈ method.body.flatMap Instr.mentions) {cell : Cell}
    (occupies : Frame.Occupies ⟨code, method⟩ binding (cell, 0)) :
    cell = .reference ∨ method.Adrift := by
  cases isStatic : method.isStatic with
  | false =>
    exact absurd occupies
      (compiles.not_occupies_zero isStatic (unshadowed isStatic) few mentioned cell)
  | true =>
    obtain ⟨register, found, same⟩ := occupies
    obtain ⟨rfl, isFirst⟩ := Prod.mk.inj same
    obtain ⟨typed, alsoFound, ty⟩ :=
      compiles.get?_of_mentioned (compiles.isStatic_eq ▸ unshadowed) mentioned
    obtain rfl := Option.some.inj (found.symm.trans alsoFound)
    have slot : register.slot = 0 := UInt16.toNat_inj.mp isFirst.symm
    by_cases isWord : binding.ty.isWord = true
    · exact .inr ⟨isStatic, attached, binding.name, register, found, slot, ty ▸ isWord⟩
    · exact .inl (if_neg isWord)

/-- Lines on one slot take it for the same, unless a static method takes a word for its receiver. -/
theorem Compiles.cell_eq_of_access (compiles : scope.Compiles body method)
    (unshadowed : method.isStatic = false → "this" ∉ scope.declared)
    (few : method.registers.size ≤ 65536) {code : ClassCode} {lines : List Line}
    (selected : Frame.lines ⟨code, method⟩ = .ok lines) {first second : Line}
    (inFirst : first ∈ lines) (inSecond : second ∈ lines) {slot : Nat}
    {firstCell secondCell : Cell} (firstAccess : first.access? = some (firstCell, slot))
    (secondAccess : second.access? = some (secondCell, slot)) :
    firstCell = secondCell ∨ method.Adrift ∧ (first = .loadThis ∨ second = .loadThis) := by
  rcases Frame.occupies_or_receiver selected inFirst firstAccess with
      ⟨one, isOne, occupies⟩ | ⟨rfl, attached⟩ <;>
    rcases Frame.occupies_or_receiver selected inSecond secondAccess with
      ⟨other, isOther, otherOccupies⟩ | ⟨rfl, otherAttached⟩
  · exact .inl (compiles.cell_eq few isOne isOther occupies otherOccupies)
  · obtain ⟨rfl, rfl⟩ := Prod.mk.inj (Option.some.inj secondAccess)
    exact (compiles.cell_eq_reference unshadowed few otherAttached isOne occupies).imp id
      fun adrift => ⟨adrift, .inr rfl⟩
  · obtain ⟨rfl, rfl⟩ := Prod.mk.inj (Option.some.inj firstAccess)
    exact (compiles.cell_eq_reference unshadowed few attached isOther otherOccupies).imp Eq.symm
      fun adrift => ⟨adrift, .inl rfl⟩
  · exact .inl (Prod.mk.inj (Option.some.inj (firstAccess.symm.trans secondAccess))).1

end Scope

/-- A register has one type throughout a method. Wherever the code of a method names a variable, to
assign to it or to read it, it has the type that is recorded for its name, also if fields,
parameters and locals share names; an instance method must not call a variable by the name of the
receiver. So if there are no more registers than slots, all lines on one slot take it for a word, or
all for a reference. The one exception is the push of a receiver that a static method does not have:
it takes the first slot for a reference also if a word is recorded there, and then no variable is
pushed from there like that. -/
theorem ClassTable.types_of_registers {table : ClassTable} {program : Program} {before : Counters}
    {code : ClassCode} (lowered : (table.lower program before).1 = .ok code) :
    ∃ decls, table.scopes program = .ok decls ∧
      List.Forall₂ (fun decl method =>
        (method.isStatic = false → "this" ∉ decl.2.declared) →
        (∀ instr ∈ method.body, ∀ binding ∈ instr.destinations ++ instr.sources,
          ∃ register, method.registers.get? binding.name = some register ∧
            register.ty = binding.ty) ∧
        (method.registers.size ≤ 65536 → ∀ lines, Frame.lines ⟨code, method⟩ = .ok lines →
          ∀ first ∈ lines, ∀ second ∈ lines, ∀ slot firstCell secondCell,
            first.access? = some (firstCell, slot) → second.access? = some (secondCell, slot) →
            firstCell = secondCell ∨
              method.Adrift ∧ (first = .loadThis ∨ second = .loadThis)))
        decls code.methods := by
  obtain ⟨-, decls, paired, compiled⟩ := compiles_of_lower lowered
  refine ⟨decls, paired, compiled.imp ?_⟩
  rintro decl method ⟨-, compiles⟩ unshadowed
  refine ⟨fun instr inBody binding named => ?_, fun few lines selected first inFirst second
    inSecond slot firstCell secondCell firstAccess secondAccess => ?_⟩
  · rw [compiles.isStatic_eq] at unshadowed
    rw [← Instr.mentions_eq] at named
    exact compiles.get?_of_mentioned unshadowed (List.mem_flatMap.mpr ⟨instr, inBody, named⟩)
  · exact compiles.cell_eq_of_access unshadowed few selected inFirst inSecond firstAccess
      secondAccess

/-- A class in whose method a field hides a parameter, a parameter hides a local, and two parameters
share a name, each time with another type. -/
def Program.doubled : Program where
  imports := []
  classDecl :=
    { name := "A"
      superClass := none
      fields := [⟨.ofTy .nowhere .int, "x", .nowhere⟩]
      methods :=
        [{ name := "add"
           isPublic := true
           isStatic := false
           returnType := .ofTy .nowhere .int
           params :=
            [⟨.ofTy .nowhere .intArray, "x", false, .nowhere⟩,
              ⟨.ofTy .nowhere .int, "n", false, .nowhere⟩,
              ⟨.ofTy .nowhere (.named "A"), "n", false, .nowhere⟩]
           locals := [⟨.ofTy .nowhere .intArray, "n", .nowhere⟩]
           body :=
            [.assign .nowhere n (.binary .nowhere (.arith .add) (.name .nowhere "x") n),
              .ret .nowhere (some n)]
           pos := .nowhere }]
      pos := .nowhere }
  pos := .nowhere
where
  n : Expr := .name .nowhere "n"

/-- The shared name has one register, and all lines on it take it for a word. -/
theorem types_of_registers_doubled :
    ∃ code method lines, ((ClassTable.ofProgram .doubled).lower .doubled {}).1 = .ok code ∧
      code.methods = [method] ∧ method.isStatic = false ∧ method.registers.size ≤ 65536 ∧
      Frame.lines ⟨code, method⟩ = .ok lines ∧
      (∃ register, method.registers.get? "n" = some register ∧ register.ty = .int) ∧
      .shortStore .word 2 ∈ lines ∧
      ∀ line ∈ lines, ∀ cell, line.access? = some (cell, 2) → cell = .word := by
  obtain ⟨code, method, lines, lowered, isOnly, inInstance, few, selected, assigned, stored⟩ :
      ∃ code method lines, ((ClassTable.ofProgram .doubled).lower .doubled {}).1 = .ok code ∧
        code.methods = [method] ∧ method.isStatic = false ∧ method.registers.size ≤ 65536 ∧
        Frame.lines ⟨code, method⟩ = .ok lines ∧
        .assign "n" (.value (.var "t0" .int)) .int ∈ method.body ∧ .shortStore .word 2 ∈ lines :=
    ⟨_, _, _, rfl, rfl, rfl, by decide +kernel, rfl, by decide +kernel, by decide +kernel⟩
  obtain ⟨decls, paired, each⟩ := ClassTable.types_of_registers lowered
  obtain rfl := Except.ok.inj paired
  rw [isOnly] at each
  obtain ⟨typed, cells⟩ := (List.forall₂_cons.mp each).1 fun _ => by decide +kernel
  refine ⟨code, method, lines, lowered, isOnly, inInstance, few, selected, ?_, stored, ?_⟩
  · exact typed _ assigned ⟨"n", .int⟩ (List.mem_append_left _ List.mem_cons_self)
  · intro line member cell access
    refine (cells few lines selected line member _ stored 2 cell .word access rfl).resolve_right ?_
    rintro ⟨adrift, -⟩
    rw [adrift.isStatic] at inInstance
    cases inInstance

/-- A class with a static method that calls itself on a receiver. -/
def Program.adrift : Program where
  imports := []
  classDecl :=
    { name := "A"
      superClass := none
      fields := []
      methods :=
        [{ name := "f"
           isPublic := true
           isStatic := true
           returnType := .ofTy .nowhere .int
           params := [⟨.ofTy .nowhere .int, "x", false, .nowhere⟩]
           locals := []
           body :=
            [.eval .nowhere (.call .nowhere (some (.this .nowhere)) "f" [.name .nowhere "x"]),
              .ret .nowhere (some (.name .nowhere "x"))]
           pos := .nowhere }]
      pos := .nowhere }
  pos := .nowhere

/-- The receiver is pushed from the first slot as a reference, and the parameter that is there as a
word. -/
theorem cells_differ_adrift :
    ∃ code method lines, ((ClassTable.ofProgram .adrift).lower .adrift {}).1 = .ok code ∧
      code.methods = [method] ∧ method.isStatic = true ∧ method.registers.size ≤ 65536 ∧
      Frame.lines ⟨code, method⟩ = .ok lines ∧
      ∃ first ∈ lines, ∃ second ∈ lines,
        first.access? = some (.reference, 0) ∧ second.access? = some (.word, 0) := by
  refine ⟨_, _, _, rfl, rfl, rfl, by decide +kernel, rfl, .loadThis, ?_, .shortLoad .word 0, ?_,
    rfl, rfl⟩
  · decide +kernel
  · decide +kernel

end JavaMinus
