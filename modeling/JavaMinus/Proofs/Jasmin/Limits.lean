/-
This file compares the registers that the lines of a method are on with the limit that
its block states for them. The limit is a number of the build and the same in all
blocks; nothing adjusts it to the method. What the lines name is the slots of the
variables that the code names, and the receiver's. So each slot is below the number of
registers, and a method keeps the limit if it has no more registers than that.

No weaker condition would do: every variable that the code names is on a line, so unless the
receiver and the parameters alone go beyond the limit, a method with more registers has
a line on one that is not below the limit. Each operation takes a register of its own,
so a long body is enough for that.
-/

import JavaMinus.Proofs.Allocation
import JavaMinus.Proofs.Build.Caches
import JavaMinus.Proofs.Jasmin.Cells
import JavaMinus.Proofs.Jasmin.Renumbering
import JavaMinus.Proofs.Lowering.Thrift

namespace JavaMinus

/-! ### Slots of a table -/

namespace Registers

/-- A slot is below the number of registers, also if slots start over. -/
theorem Valid.slot_lt_size {registers : Registers} (valid : registers.Valid) {name : String}
    {register : Register} (found : registers.get? name = some register) :
    register.slot.toNat < registers.size := by
  obtain ⟨position, stored⟩ := valid.get?_eq_some_iff.mp found
  have inRange : position < registers.size := (Array.getElem?_eq_some_iff.mp stored).1
  rw [valid.slot name position register stored, UInt16.toNat_ofNat']
  exact Nat.lt_of_le_of_lt (Nat.mod_le _ _) inRange

/-- There are no more registers than declarations. -/
theorem Lists.size_le {table : Registers} {declared : List Binding} (lists : table.Lists declared) :
    table.size ≤ declared.length := by
  have named : table.names ⊆ declared.map Binding.name := fun name => (lists.mem_names name).mp
  have few := (lists.nodup.subperm named).length_le
  rwa [names, List.length_map, List.length_map, toList, Array.length_toList] at few

/-- What stands behind a table was declared after it. -/
theorem Lists.mem_of_size_le {table : Registers} {declared : List Binding}
    (lists : table.Lists declared) {later : List Binding} {position : Nat} {name : String}
    {register : Register} (behind : table.size ≤ position)
    (stored : (table.declareAll later).entries[position]? = some (name, register)) :
    name ∈ later.map Binding.name := by
  have after := lists.declareAll later
  have isEntry : (name, register) ∈ (table.declareAll later).toList :=
    after.valid.get?_iff_mem.mp (after.valid.get?_eq_some_iff.mpr ⟨position, stored⟩)
  have known := (after.mem_names name).mp (List.mem_map.mpr ⟨_, isEntry, rfl⟩)
  rw [List.map_append, List.mem_append] at known
  refine known.resolve_left fun earlier => ?_
  -- A name of the table keeps its place there, but a name has one place only.
  obtain ⟨⟨_, other⟩, inTable, rfl⟩ := List.mem_map.mp ((lists.mem_names name).mpr earlier)
  obtain ⟨place, kept⟩ := lists.valid.get?_eq_some_iff.mp (lists.valid.get?_iff_mem.mpr inTable)
  have before : place < table.size := (Array.getElem?_eq_some_iff.mp kept).1
  have atPlace := (after.valid.index _ place).mpr ⟨other, getElem?_declareAll kept later⟩
  have atPosition := (after.valid.index _ position).mpr ⟨register, stored⟩
  have same := Option.some.inj (atPlace.symm.trans atPosition)
  omega

/-- If the receiver and the parameters leave room below a limit, there are no more registers than
that exactly if the variables that the code names have slots below it. -/
theorem size_le_iff {receiver : Option Ty} {params : List Binding} {code : List Instr} {limit : Nat}
    (room : receiver.toList.length + params.length ≤ limit) (small : limit < 65536) :
    (allocate receiver params code).size ≤ limit ↔
      ∀ binding ∈ code.flatMap fun instr => instr.destinations ++ instr.sources, ∀ register,
        (allocate receiver params code).get? binding.name = some register →
          register.slot.toNat < limit := by
  have valid := valid_allocate receiver params code
  constructor
  · intro few binding _ register found
    exact Nat.lt_of_lt_of_le (valid.slot_lt_size found) few
  · intro below
    by_contra many
    have first := lists_empty.declareAll ((receiver.toList.map fun ty => ⟨"this", ty⟩) ++ params)
    have taken : (empty.declareAll ((receiver.toList.map fun ty => ⟨"this", ty⟩) ++ params)).size ≤
        limit := first.size_le.trans (by simpa using room)
    -- The register at the limit comes from the code, and its slot is the limit.
    obtain ⟨⟨name, register⟩, stored⟩ : ∃ entry,
        (allocate receiver params code).entries[limit]? = some entry :=
      ⟨_, Array.getElem?_eq_getElem (Nat.lt_of_not_le many)⟩
    have isLimit := valid.slot name limit register stored
    have found := valid.get?_eq_some_iff.mpr ⟨limit, stored⟩
    rw [allocate, declareAll_append, Instr.flatMap_mentions] at stored
    obtain ⟨binding, named, rfl⟩ := List.mem_map.mp (first.mem_of_size_le taken stored)
    have low := below binding named register found
    rw [isLimit, UInt16.toNat_ofNat', Nat.mod_eq_of_lt small] at low
    exact Nat.lt_irrefl _ low

end Registers

/-! ### Slots of lines -/

namespace Jasmin

/-- The slots of the registers that the lines push or pop into, in order. -/
def slots (lines : List Line) : List Nat := lines.filterMap fun line => line.access?.map Prod.snd

theorem mem_slots_iff {lines : List Line} {slot : Nat} :
    slot ∈ slots lines ↔ ∃ line ∈ lines, ∃ cell, line.access? = some (cell, slot) := by
  simp [slots]

@[simp] theorem slots_append (first second : List Line) :
    slots (first ++ second) = slots first ++ slots second :=
  List.filterMap_append

theorem slots_loadSlot (cell : Cell) (slot : UInt16) :
    slots [.loadSlot cell slot] = [slot.toNat] := by
  simp [slots, Line.access?_loadSlot]

theorem slots_storeSlot (cell : Cell) (slot : UInt16) :
    slots [.storeSlot cell slot] = [slot.toNat] := by
  simp [slots, Line.access?_storeSlot]

namespace Frame

/-- Each of the variables has a register that one of the lines is on. -/
def Uses (frame : Frame) (bindings : List Binding) (lines : List Line) : Prop :=
  ∀ binding ∈ bindings, ∃ register, frame.method.registers.get? binding.name = some register ∧
    register.slot.toNat ∈ slots lines

namespace Uses

variable {frame : Frame} {bindings others : List Binding} {lines rest : List Line}

theorem none : frame.Uses [] lines := nofun

theorem mono (uses : frame.Uses bindings lines) (within : slots lines ⊆ slots rest) :
    frame.Uses bindings rest := by
  intro binding member
  obtain ⟨register, found, named⟩ := uses binding member
  exact ⟨register, found, within named⟩

theorem followed (uses : frame.Uses bindings lines) (rest : List Line) :
    frame.Uses bindings (lines ++ rest) :=
  uses.mono (by simp)

theorem append (first : frame.Uses bindings lines) (second : frame.Uses others rest) :
    frame.Uses (bindings ++ others) (lines ++ rest) :=
  List.forall_mem_append.mpr ⟨first.followed rest, second.mono (by simp)⟩

end Uses

variable {frame : Frame}

theorem Loads.uses {operand : Operand} {lines : List Line} (loads : frame.Loads operand lines) :
    frame.Uses operand.sources lines := by
  cases loads with
  | literal | field | this => exact .none
  | var found => exact List.forall_mem_singleton.mpr ⟨_, found, by simp [slots_loadSlot]⟩

theorem LoadsAll.uses {operands : List Operand} {lines : List Line}
    (loads : frame.LoadsAll operands lines) :
    frame.Uses (operands.flatMap Operand.sources) lines := by
  induction loads with
  | nil => exact .none
  | cons first _ inductionHypothesis =>
    rw [List.flatMap_cons]
    exact first.uses.append inductionHypothesis

theorem Targets.uses {target : CallTarget} {lines : List Line} {owner : String}
    (targets : frame.Targets target lines owner) :
    frame.Uses (target.operands.flatMap Operand.sources) lines := by
  cases targets with
  | this | ofClass => exact .none
  | receiver loads => exact (LoadsAll.single loads).uses

theorem Calls.uses {call : Call} {lines : List Line} (calls : frame.Calls call lines)
    (bare : call.Bare) : frame.Uses (call.operands.flatMap Operand.sources) lines := by
  rw [Call.operands, List.flatMap_append]
  cases calls with
  | construct isConstructor targets =>
    rw [bare isConstructor]
    exact targets.uses.append .none
  | virtual _ _ targets loads => exact (targets.uses.append loads.uses).followed _
  | static _ onClass loads =>
    rw [onClass]
    exact loads.uses.followed _

theorem Evaluates.uses {rhs : Instr} {lines : List Line} (evaluates : frame.Evaluates rhs lines)
    (bare : rhs.Bare) : frame.Uses (rhs.destinations ++ rhs.sources) lines := by
  cases evaluates with
  | value loads => exact (LoadsAll.single loads).uses
  | newObject => exact .none
  | call calls => exact calls.uses bare
  | arith loads | loadElement loads => exact loads.uses.followed _
  | newArray loads | getField loads | arrayLength loads =>
    exact (LoadsAll.single loads).uses.followed _

/-- The lines of an instruction are on the registers of all variables that it names, unless a
constructor is given arguments or a return drops a value. -/
theorem Selects.uses {instr : Instr} {lines : List Line} (selects : frame.Selects instr lines)
    (bare : instr.Bare) (keeps : instr.drops = false) :
    frame.Uses (instr.destinations ++ instr.sources) lines := by
  cases selects with
  | assign evaluates found =>
    refine List.forall_mem_cons.mpr ⟨⟨_, found, ?_⟩, (evaluates.uses ?_).followed _⟩
    · simp [slots_storeSlot]
    · cases evaluates with
      | call => exact bare
      | _ => trivial
  | call _ calls | discardNothing _ calls => exact calls.uses bare
  | discard _ calls => exact (calls.uses bare).followed _
  | putField loads | storeElement loads | ifLess loads => exact loads.uses.followed _
  | ifNonZero loads | ret _ loads => exact (LoadsAll.single loads).uses.followed _
  | label | goto => exact .none
  | @retVoid result ty isVoid =>
    cases result with
    | none => exact .none
    | some operand =>
      rw [Instr.drops, isVoid] at keeps
      cases keeps

/-- The lines of a body are on the registers of all variables that its code names. -/
theorem uses_of_lines {lines : List Line} (selected : frame.lines = .ok lines)
    (bare : ∀ instr ∈ frame.method.body, instr.Bare) (thrifty : Thrifty frame.method.body) :
    frame.Uses (frame.method.body.flatMap fun instr => instr.destinations ++ instr.sources)
      lines := by
  obtain ⟨blocks, each, rfl⟩ := blocks_of_lines selected
  clear selected
  generalize frame.method.body = code at each bare thrifty ⊢
  induction each with
  | nil => exact .none
  | cons first _ inductionHypothesis =>
    obtain ⟨firstBare, restBare⟩ := List.forall_mem_cons.mp bare
    obtain ⟨firstKeeps, restThrifty⟩ := thrifty_cons.mp thrifty
    rw [List.flatMap_cons]
    exact ((selects_of_select first).uses firstBare firstKeeps).append
      (inductionHypothesis restBare restThrifty)

end Frame

/-! ### The text of a class -/

/-- What stands in the text of a class before the blocks of its methods. -/
def classHead (code : ClassCode) (fields : List String) : String :=
  s!".class public {code.name}\n.super {superPath code}\n\n"
    ++ String.join fields
    ++ (if fields.isEmpty then "" else "\n")
    ++ ".method public <init>()V\n  aload_0\n"
    ++ s!"  invokespecial {superPath code}/<init>()V\n"
    ++ "  return\n.end method\n"

theorem classText_eq (limits : Limits) (code : ClassCode) :
    classText limits code =
      (code.fields.mapM (fieldText code) >>= fun fields =>
        code.methods.mapM (methodText limits code) >>= fun blocks =>
          .ok (classHead code fields ++ String.join (blocks.map fun block => "\n" ++ block))) := rfl

/-- The block of a method states the limits, and then come its lines. -/
theorem methodText_eq_ok_iff {limits : Limits} {code : ClassCode} {method : MethodCode}
    {text : String} :
    methodText limits code method = .ok text ↔
      ∃ descriptor, code.methodDescriptor (method.params.map Binding.ty) method.returnType =
          .ok descriptor ∧
        ∃ lines, Frame.lines ⟨code, method⟩ = .ok lines ∧
          block (blockHead limits method descriptor) lines = text := by
  simp only [methodText_eq, bind_eq_ok_iff, Except.ok.injEq]

/-- The text of a class ends with a block for each method. -/
theorem classText_eq_ok_iff {limits : Limits} {code : ClassCode} {text : String} :
    classText limits code = .ok text ↔
      ∃ fields, List.Forall₂ (fun field line => fieldText code field = .ok line) code.fields fields ∧
        ∃ blocks, List.Forall₂ (fun method block => methodText limits code method = .ok block)
            code.methods blocks ∧
          classHead code fields ++ String.join (blocks.map fun block => "\n" ++ block) = text := by
  simp only [classText_eq, bind_eq_ok_iff, mapM_eq_ok_iff, Except.ok.injEq]

end Jasmin

open Jasmin

/-! ### Methods -/

/-- The registers that the receiver, if there is one, and the parameters ask for. -/
def MethodCode.entryCount (method : MethodCode) : Nat :=
  (if method.isStatic then 0 else 1) + method.params.length

namespace Scope

variable {scope : Scope} {body : List Stmt} {method : MethodCode}

theorem Compiles.entryCount_eq (compiles : scope.Compiles body method) :
    method.entryCount = scope.receiverType?.toList.length + scope.method.params.length := by
  obtain ⟨_, _, _, -, rfl⟩ := compiles
  rw [MethodCode.entryCount, methodCode, receiverType?]
  cases scope.method.isStatic <;> rfl

/-- The slots that the lines of a method name are below the number of its registers. -/
theorem Compiles.slot_lt_size (compiles : scope.Compiles body method) {code : ClassCode}
    {lines : List Line} (selected : Frame.lines ⟨code, method⟩ = .ok lines)
    (attached : method.isStatic = true → Detached method.body) :
    ∀ slot ∈ slots lines, slot < method.registers.size := by
  intro slot named
  obtain ⟨line, member, cell, access⟩ := mem_slots_iff.mp named
  rcases Frame.occupies_or_receiver selected member access with
    ⟨_, -, register, found, same⟩ | ⟨rfl, notDetached⟩
  · obtain ⟨-, rfl⟩ := Prod.mk.inj same
    exact compiles.valid_registers.slot_lt_size found
  · obtain ⟨-, rfl⟩ := Prod.mk.inj (Option.some.inj access)
    have inInstance := Bool.eq_false_iff.mpr (mt attached notDetached)
    exact compiles.valid_registers.slot_lt_size (compiles.get?_this inInstance)

/-- If the receiver and the parameters leave room below a limit, the lines of a method keep it
exactly if there are no more registers than that. -/
theorem Compiles.slots_lt_iff (compiles : scope.Compiles body method) {code : ClassCode}
    {lines : List Line} (selected : Frame.lines ⟨code, method⟩ = .ok lines)
    (attached : method.isStatic = true → Detached method.body) (thrifty : Thrifty method.body)
    {limit : Nat} (room : method.entryCount ≤ limit) (small : limit < 65536) :
    (∀ slot ∈ slots lines, slot < limit) ↔ method.registers.size ≤ limit := by
  constructor
  · intro kept
    rw [compiles.entryCount_eq] at room
    rw [compiles.registers_eq, Registers.size_le_iff room small, ← compiles.registers_eq]
    intro binding named register found
    obtain ⟨other, alsoFound, onLine⟩ :=
      Frame.uses_of_lines selected compiles.arranged.bare thrifty binding named
    obtain rfl := Option.some.inj (found.symm.trans alsoFound)
    exact kept _ onLine
  · intro few slot named
    exact Nat.lt_of_lt_of_le (compiles.slot_lt_size selected attached slot named) few

end Scope

/-! ### Builds -/

namespace Session

/-- A build makes the report and the text from scratch. -/
theorem compile_eq (program : Program) (options : Options) :
    compile program options = (start program options).freshReport.bind fun report =>
      (start program options).freshText.map fun text => ⟨report, text⟩ := by
  have coherent : (start program options).Coherent := coherent_forget (start program options)
  unfold compile
  split
  next error next ran =>
    obtain ⟨made, -, -⟩ := coherent.analyze.of_eq ran
    rw [← made]
    rfl
  next report next ran =>
    obtain ⟨made, sameJob, after⟩ := coherent.analyze.of_eq ran
    have sameText : next.freshText = (start program options).freshText := by
      simpa using congrArg freshText sameJob
    rw [← made, after.assemble.result, sameText]
    dsimp only [Except.bind]
    cases (start program options).freshText <;> rfl

theorem mapError_eq_ok_iff {ε ε' α : Type} {first : Except ε α} {change : ε → ε'} {result : α} :
    first.mapError change = .ok result ↔ first = .ok result := by
  cases first <;> simp [Except.mapError]

/-- A program is admitted if its report has no errors, or if they do not matter. -/
theorem freshAdmission_eq_ok_iff {session : Session} {report : Report}
    (made : session.freshReport = .ok report) :
    session.freshAdmission = .ok () ↔
      (session.options.abortOnErrors = true → report.hasErrors = false) := by
  rw [freshAdmission, made]
  split
  next aborts => cases clean : report.hasErrors <;> simp [Except.bind, clean, aborts]
  next goesOn => exact iff_of_true rfl fun aborts => absurd aborts goesOn

/-- A build succeeds if its stages do, and if the report has no errors should they matter. -/
theorem compile_eq_ok_iff {program : Program} {options : Options} {output : Output} :
    compile program options = .ok output ↔
      Check.runAll (Check.standard options.thisForbiddenIn) program (.ofProgram program) =
          .ok output.report ∧
        (options.abortOnErrors = true → output.report.hasErrors = false) ∧
        ∃ code, ((ClassTable.ofProgram program).lower program {}).1 = .ok code ∧
          classText options.limits code = .ok output.text := by
  rw [compile_eq]
  constructor
  · intro built
    obtain ⟨report, made, built⟩ := bind_eq_ok_iff.mp built
    obtain ⟨text, textMade, rfl⟩ := map_eq_ok_iff.mp built
    obtain ⟨⟨⟩, admitted, listed⟩ := bind_eq_ok_iff.mp textMade
    obtain ⟨code, lowered, assembled⟩ := bind_eq_ok_iff.mp listed
    exact ⟨mapError_eq_ok_iff.mp made, (freshAdmission_eq_ok_iff made).mp admitted, code,
      mapError_eq_ok_iff.mp lowered, mapError_eq_ok_iff.mp assembled⟩
  · rintro ⟨ran, clean, code, lowered, assembled⟩
    have made : (start program options).freshReport = .ok output.report :=
      mapError_eq_ok_iff.mpr ran
    refine bind_eq_ok_iff.mpr ⟨output.report, made, map_eq_ok_iff.mpr ⟨output.text, ?_, rfl⟩⟩
    refine bind_eq_ok_iff.mpr ⟨(), (freshAdmission_eq_ok_iff made).mpr clean, ?_⟩
    exact bind_eq_ok_iff.mpr
      ⟨code, mapError_eq_ok_iff.mpr lowered, mapError_eq_ok_iff.mpr assembled⟩

end Session

/-- The text of a program without errors ends with the blocks of its methods, and each of them
states the limit of the build. All slots that the lines of a block name are below the number of
registers of its method, so the block keeps the limit if the method has no more registers than that.
There is no slack: every variable that the code names is on a line, so if the receiver and the
parameters leave room below the limit, the block keeps it only if there are no more registers. -/
theorem slots_of_compile {program : Program} {options : Options} {output : Output}
    (compiled : compile program options = .ok output) (clean : output.report.hasErrors = false) :
    ∃ code fields blocks, ((ClassTable.ofProgram program).lower program {}).1 = .ok code ∧
      output.text = classHead code fields ++ String.join (blocks.map fun block => "\n" ++ block) ∧
      List.Forall₂ (fun method text => ∃ descriptor lines,
          text = block (blockHead options.limits method descriptor) lines ∧
          Frame.lines ⟨code, method⟩ = .ok lines ∧
          Frame.Uses ⟨code, method⟩
            (method.body.flatMap fun instr => instr.destinations ++ instr.sources) lines ∧
          (∀ slot ∈ slots lines, slot < method.registers.size) ∧
          (method.registers.size ≤ options.limits.locals.toNat →
            ∀ slot ∈ slots lines, slot < options.limits.locals.toNat) ∧
          (method.entryCount ≤ options.limits.locals.toNat →
            ((∀ slot ∈ slots lines, slot < options.limits.locals.toNat) ↔
              method.registers.size ≤ options.limits.locals.toNat)))
        code.methods blocks := by
  obtain ⟨ran, -, code, lowered, assembled⟩ := Session.compile_eq_ok_iff.mp compiled
  obtain ⟨fields, -, blocks, each, assembledText⟩ := classText_eq_ok_iff.mp assembled
  have checked := (Check.run_of_runAll ran clean).2
  obtain ⟨_, returnsRan, returnsClean⟩ :=
    checked .returnCompatibility (by simp [Check.standard])
  obtain ⟨_, thisRan, thisClean⟩ :=
    checked (.thisUsage options.thisForbiddenIn) (by simp [Check.standard])
  have sound : ∀ method ∈ code.methods, (∃ scope body, Scope.Compiles scope body method) ∧
      Thrifty method.body ∧ (method.isStatic = true → Detached method.body) := fun method member =>
    ⟨ClassTable.compiles_of_mem lowered member,
      ClassTable.thrifty_of_lower returnsRan returnsClean lowered member,
      ClassTable.detached_of_lower thisRan thisClean lowered member⟩
  refine ⟨code, fields, blocks, lowered, assembledText.symm,
    ((List.forall₂_and_left _ _).mpr ⟨sound, each⟩).imp ?_⟩
  rintro method text ⟨⟨⟨scope, body, compiles⟩, thrifty, attached⟩, made⟩
  obtain ⟨descriptor, -, lines, selected, rfl⟩ := methodText_eq_ok_iff.mp made
  have below := compiles.slot_lt_size selected attached
  refine ⟨descriptor, lines, rfl, selected,
    Frame.uses_of_lines selected compiles.arranged.bare thrifty, below,
    fun few slot named => Nat.lt_of_lt_of_le (below slot named) few,
    fun room => compiles.slots_lt_iff selected attached thrifty room (UInt16.toNat_lt _)⟩

/-- Few registers are taken, and the limit is kept. -/
theorem slots_of_compile_busy :
    ∃ output code method lines, compile .busy {} = .ok output ∧ output.report.hasErrors = false ∧
      ((ClassTable.ofProgram .busy).lower .busy {}).1 = .ok code ∧ code.methods = [method] ∧
      Frame.lines ⟨code, method⟩ = .ok lines ∧ method.registers.size = 4 ∧
      ∀ slot ∈ slots lines, slot < 99 := by
  obtain ⟨output, compiled, clean⟩ :
      ∃ output, compile .busy {} = .ok output ∧ output.report.hasErrors = false := ⟨_, rfl, rfl⟩
  obtain ⟨code, method, lowered, isOnly, size⟩ :
      ∃ code method, ((ClassTable.ofProgram .busy).lower .busy {}).1 = .ok code ∧
        code.methods = [method] ∧ method.registers.size = 4 := ⟨_, _, rfl, rfl, by decide +kernel⟩
  obtain ⟨_, fields, blocks, lowered', -, each⟩ := slots_of_compile compiled clean
  obtain rfl := Except.ok.inj (lowered.symm.trans lowered')
  rw [isOnly] at each
  obtain ⟨_, _, ⟨_, lines, -, selected, -, -, within, -⟩, -⟩ := List.forall₂_cons_left_iff.mp each
  exact ⟨output, code, method, lines, compiled, clean, lowered, isOnly, selected, size,
    within (by rw [size]; decide)⟩

/-- A method with so many sums that their results need a hundred registers with the receiver. -/
def Program.laden : Program :=
  .ofBody (List.replicate 99 (.eval .nowhere (.binary .nowhere (.arith .add)
    (.literal .nowhere (.int 1)) (.literal .nowhere (.int 1)))))

/-- The last result is stored in slot 99, and the block says that there are 99 registers. -/
theorem slot_exceeds_limit_laden :
    ∃ output code method descriptor lines, compile .laden {} = .ok output ∧
      output.report.hasErrors = false ∧
      ((ClassTable.ofProgram .laden).lower .laden {}).1 = .ok code ∧ code.methods = [method] ∧
      Frame.lines ⟨code, method⟩ = .ok lines ∧
      output.text = classHead code [] ++
        String.join ["\n" ++ block (blockHead ({} : Options).limits method descriptor) lines] ∧
      ({} : Options).limits.locals.toNat = 99 ∧ 99 ∈ slots lines := by
  obtain ⟨report, ran, clean⟩ :
      ∃ report, Check.runAll (Check.standard (some "main")) .laden (.ofProgram .laden) =
        .ok report ∧ report.hasErrors = false := ⟨_, rfl, rfl⟩
  obtain ⟨code, method, descriptor, lowered, isOnly, fieldless, described, stored⟩ :
      ∃ code method descriptor, ((ClassTable.ofProgram .laden).lower .laden {}).1 = .ok code ∧
        code.methods = [method] ∧ code.fields = [] ∧
        code.methodDescriptor (method.params.map Binding.ty) method.returnType = .ok descriptor ∧
        ((Frame.lines ⟨code, method⟩).toOption.any fun lines => 99 ∈ slots lines) = true :=
    ⟨_, _, _, rfl, rfl, rfl, rfl, by decide +kernel⟩
  cases selected : Frame.lines ⟨code, method⟩ with
  | error fault =>
    rw [selected] at stored
    cases stored
  | ok lines =>
    rw [selected] at stored
    have onLine : 99 ∈ slots lines := of_decide_eq_true stored
    have made : methodText ({} : Options).limits code method = .ok _ :=
      methodText_eq_ok_iff.mpr ⟨descriptor, described, lines, selected, rfl⟩
    refine ⟨⟨report, _⟩, code, method, descriptor, lines, Session.compile_eq_ok_iff.mpr
      ⟨ran, nofun, code, lowered, classText_eq_ok_iff.mpr ⟨[], ?_, [_], ?_, rfl⟩⟩, clean, lowered,
      isOnly, selected, rfl, rfl, onLine⟩
    · rw [fieldless]
      exact .nil
    · rw [isOnly]
      exact .cons made .nil

end JavaMinus
