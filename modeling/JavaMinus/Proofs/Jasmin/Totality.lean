/-
This file shows that assembly can be written for whatever lowering produces.
Selecting the lines of an instruction fails if a variable has no register, a type
has no descriptor, or the instruction has a form that assembly lacks. The first
does not happen because registers are allocated for every name that the code
mentions; the others do not happen in code that can be expressed. So a class whose
declared types can all be described is built once it is lowered, whatever the
checks have to say about it.
-/

import JavaMinus.Jasmin.Assembler
import JavaMinus.Proofs.Allocation
import JavaMinus.Proofs.Jasmin.Selection
import JavaMinus.Proofs.Lowering.Expressible

namespace JavaMinus

open Observer

/-! ### Operands of lowered code -/

/-- Lowered code has only operands that lowering makes. -/
theorem Scope.Arranged.admitted {scope : Scope} {code : List Instr}
    (arranged : scope.Arranged code) :
    ∀ instr ∈ code, ∀ operand ∈ instr.operands, scope.Admits operand := by
  induction arranged with
  | nil => exact nofun
  | allocation named _ inductionHypothesis =>
    refine List.forall_mem_cons.mpr ⟨nofun, List.forall_mem_cons.mpr ⟨?_, inductionHypothesis⟩⟩
    exact List.forall_mem_singleton.mpr named
  | regular isRegular _ inductionHypothesis =>
    exact List.forall_mem_cons.mpr ⟨isRegular.operands, inductionHypothesis⟩

namespace Jasmin

/-- The step has a result. -/
def Succeeds {α : Type} (outcome : Except Fault α) : Prop := ∃ result, outcome = .ok result

theorem succeeds_ok {α : Type} (result : α) : Succeeds (.ok result : Except Fault α) := ⟨_, rfl⟩

theorem Succeeds.bind {α β : Type} {first : Except Fault α} {next : α → Except Fault β}
    (succeeds : Succeeds first) (nextSucceeds : ∀ result, Succeeds (next result)) :
    Succeeds (first >>= next) := by
  obtain ⟨result, rfl⟩ := succeeds
  exact nextSucceeds result

theorem Succeeds.map {α β : Type} {first : Except Fault α} (succeeds : Succeeds first)
    (change : α → β) : Succeeds (first.map change) := by
  obtain ⟨result, rfl⟩ := succeeds
  exact succeeds_ok _

theorem succeeds_mapM {α β : Type} {each : α → Except Fault β} {items : List α}
    (succeeds : ∀ item ∈ items, Succeeds (each item)) : Succeeds (items.mapM each) := by
  induction items with
  | nil => exact succeeds_ok []
  | cons item rest inductionHypothesis =>
    obtain ⟨first, others⟩ := List.forall_mem_cons.mp succeeds
    rw [List.mapM_cons]
    exact first.bind fun _ => (inductionHypothesis others).bind fun _ => succeeds_ok _

theorem succeeds_of_mapM {α β : Type} {each : α → Except Fault β} {items : List α}
    (succeeds : Succeeds (items.mapM each)) : ∀ item ∈ items, Succeeds (each item) := by
  obtain ⟨results, mapped⟩ := succeeds
  have all := mapM_eq_ok_iff.mp mapped
  clear mapped
  induction all with
  | nil => exact nofun
  | cons first _ inductionHypothesis =>
    exact List.forall_mem_cons.mpr ⟨⟨_, first⟩, inductionHypothesis⟩

/-! ### Descriptors -/

theorem isSome_baseDescriptor? (code : ClassCode) (ty : Ty) :
    (code.baseDescriptor? ty).isSome = ty.isDescribable := by
  obtain ⟨base, isArray⟩ := ty
  simp only [ClassCode.baseDescriptor?, Ty.isDescribable, Ty.isUnknown, Ty.arrayOf]
  split
  · simp
  · simp
  · cases isArray <;> rfl
  · simp
  · next notVoid notEmpty => simpa using ⟨notEmpty, fun isVoid => absurd isVoid notVoid⟩

/-- A type has a descriptor exactly if it can be described. -/
theorem succeeds_descriptor_iff (code : ClassCode) (ty : Ty) :
    Succeeds (code.descriptor ty) ↔ ty.isDescribable = true := by
  rw [ClassCode.descriptor, ← isSome_baseDescriptor? code ty]
  cases code.baseDescriptor? ty <;> simp [Succeeds]

theorem succeeds_methodDescriptor {code : ClassCode} {params : List Ty} {result : Ty}
    (paramsDescribable : ∀ param ∈ params, param.isDescribable = true)
    (resultDescribable : result.isDescribable = true) :
    Succeeds (code.methodDescriptor params result) := by
  have described := succeeds_mapM fun param member =>
    (succeeds_descriptor_iff code param).mpr (paramsDescribable param member)
  exact described.bind fun _ =>
    ((succeeds_descriptor_iff code result).mpr resultDescribable).bind fun _ => succeeds_ok _

/-- The descriptor of every method of the class can be written. -/
def Headed (code : ClassCode) : Prop :=
  ∀ method ∈ code.methods,
    Succeeds (code.methodDescriptor (method.params.map Binding.ty) method.returnType)

namespace Frame

/-! ### Instructions -/

variable {frame : Frame}

theorem succeeds_loadAll {operands : List Operand}
    (loads : ∀ operand ∈ operands, Succeeds (frame.load operand)) :
    Succeeds (frame.loadAll operands) :=
  (succeeds_mapM loads).map _

theorem succeeds_callTarget {target : CallTarget}
    (loads : ∀ operand ∈ target.operands, Succeeds (frame.load operand)) :
    Succeeds (frame.callTarget target) := by
  cases target with
  | this => exact succeeds_ok _
  | receiver operand =>
    exact (loads operand (List.mem_singleton_self _)).bind fun _ => succeeds_ok _
  | ofClass name => exact succeeds_ok _

/-- A call is described by the method it belongs to, or else by its own types. -/
theorem succeeds_callDescriptor (headed : Headed frame.code) {call : Call}
    (expressible : call.isExpressible = true) (owner : String) :
    Succeeds (frame.callDescriptor owner call) := by
  simp only [Call.isExpressible, Bool.and_eq_true, List.all_eq_true] at expressible
  obtain ⟨⟨-, args⟩, result⟩ := expressible
  have byOperands : Succeeds
      (frame.code.methodDescriptor (call.args.map Operand.ty) call.returnType) :=
    succeeds_methodDescriptor (List.forall_mem_map.mpr args) result
  rw [callDescriptor]
  split
  · next callee found =>
    split
    · exact headed callee (List.mem_of_find?_eq_some found)
    · exact byOperands
  · exact byOperands

theorem succeeds_callLine {call : Call} (meets : call.kind.meets call.target = true)
    (notConstructor : call.kind ≠ .constructor) (owner : String) (descriptor : MethodDescriptor) :
    Succeeds (frame.callLine owner call descriptor) := by
  obtain ⟨kind, target, method, args, returnType⟩ := call
  cases kind with
  | constructor => exact absurd rfl notConstructor
  | virtual => cases target with
    | this | receiver operand => exact succeeds_ok _
    | ofClass name => cases meets
  | static => cases target with
    | this | receiver operand => cases meets
    | ofClass name => exact succeeds_ok _

theorem succeeds_call (headed : Headed frame.code) {call : Call}
    (expressible : call.isExpressible = true)
    (loads : ∀ operand ∈ call.operands, Succeeds (frame.load operand)) :
    Succeeds (frame.call call) := by
  obtain ⟨targetLoads, argsLoad⟩ := List.forall_mem_append.mp loads
  refine (succeeds_callTarget targetLoads).bind fun ⟨target, owner⟩ => ?_
  dsimp only
  split
  · exact succeeds_ok _
  · next notConstructor =>
    refine (succeeds_loadAll argsLoad).bind fun _ => ?_
    refine (succeeds_callDescriptor headed expressible owner).bind fun descriptor => ?_
    simp only [Call.isExpressible, Bool.and_eq_true] at expressible
    exact (succeeds_callLine expressible.1.1 notConstructor owner descriptor).bind fun _ =>
      succeeds_ok _

theorem succeeds_value (headed : Headed frame.code) {rhs : Instr} (hasValue : rhs.hasValue = true)
    (loads : ∀ operand ∈ rhs.operands, Succeeds (frame.load operand)) :
    Succeeds (frame.value rhs) := by
  cases rhs with
  | value operand => exact loads operand (List.mem_singleton_self _)
  | newObject className => exact succeeds_ok _
  | newArray operand | arrayLength operand =>
    exact (loads operand (List.mem_singleton_self _)).bind fun _ => succeeds_ok _
  | arith op left right ty | loadElement left right =>
    exact (succeeds_loadAll loads).bind fun _ => succeeds_ok _
  | call invocation => exact succeeds_call headed hasValue loads
  | getField receiver field ty =>
    refine (loads receiver (List.mem_singleton_self _)).bind fun _ => ?_
    exact (((succeeds_descriptor_iff _ ty).mpr hasValue).map _).bind fun _ => succeeds_ok _
  | _ => cases hasValue

/-- An instruction that can be expressed is selected if its operands can be loaded and what it
assigns to has a register. -/
theorem succeeds_select (headed : Headed frame.code) {instr : Instr}
    (expressible : instr.isExpressible = true)
    (loads : ∀ operand ∈ instr.operands, Succeeds (frame.load operand))
    (stores : ∀ dest rhs ty, instr = .assign dest rhs ty → Succeeds (frame.slot dest)) :
    Succeeds (frame.select instr) := by
  cases instr with
  | assign dest rhs ty =>
    exact (succeeds_value headed expressible loads).bind fun _ =>
      (stores dest rhs ty rfl).bind fun _ => succeeds_ok _
  | call invocation =>
    rw [Instr.isExpressible, Bool.and_eq_true] at expressible
    rw [select, if_pos expressible.1]
    exact succeeds_call headed expressible.2 loads
  | discard inner => cases inner with
    | call invocation => exact (succeeds_call headed expressible loads).bind fun _ => succeeds_ok _
    | _ => cases expressible
  | putField receiver field ty stored =>
    refine (succeeds_loadAll loads).bind fun _ => ?_
    exact (((succeeds_descriptor_iff _ ty).mpr expressible).map _).bind fun _ => succeeds_ok _
  | storeElement array position stored =>
    exact (succeeds_loadAll loads).bind fun _ => succeeds_ok _
  | label place | goto target => exact succeeds_ok _
  | branch condition target => cases condition with
    | less left right => exact (succeeds_loadAll loads).bind fun _ => succeeds_ok _
    | nonZero operand =>
      exact (loads operand (List.mem_singleton_self _)).bind fun _ => succeeds_ok _
  | ret result ty =>
    rw [select]
    unfold Frame.ret
    split
    · exact succeeds_ok _
    · next notVoid =>
      cases result with
      | none => exact absurd expressible (by simpa [Instr.isExpressible] using notVoid)
      | some operand =>
        exact (loads operand (List.mem_singleton_self _)).bind fun _ => succeeds_ok _
  | _ => cases expressible

/-! ### Methods -/

/-- What the code mentions has a slot. -/
theorem succeeds_slot {receiver : Option Ty}
    (allocated : frame.method.registers =
      .allocate receiver frame.method.params frame.method.body)
    {instr : Instr} (inBody : instr ∈ frame.method.body) {name : String} {ty : Ty}
    (mentioned : ⟨name, ty⟩ ∈ instr.mentions) : Succeeds (frame.slot name) := by
  obtain ⟨register, found⟩ := Registers.get?_of_mem_mentions receiver frame.method.params inBody
    mentioned
  rw [← allocated] at found
  exact ⟨_, slot_eq_ok_iff.mpr ⟨register, found, rfl⟩⟩

/-- The operands of lowered code can be loaded: variables have registers, and fields have
descriptors. -/
theorem succeeds_load {scope : Scope} {receiver : Option Ty}
    (describable : scope.table.Describable)
    (allocated : frame.method.registers =
      .allocate receiver frame.method.params frame.method.body)
    {instr : Instr} (inBody : instr ∈ frame.method.body) {operand : Operand}
    (reads : operand ∈ instr.operands) (admits : scope.Admits operand) :
    Succeeds (frame.load operand) := by
  cases operand with
  | literal value ty | this ty => exact succeeds_ok _
  | var name ty =>
    have mentioned : ⟨name, ty⟩ ∈ instr.mentions := by
      rw [Instr.mentions_eq]
      exact List.mem_append_right _
        (List.mem_flatMap.mpr ⟨_, reads, List.mem_singleton_self _⟩)
    exact (succeeds_slot allocated inBody mentioned).bind fun _ => succeeds_ok _
  | field name ty =>
    have declared := describable.fields _ (List.mem_of_find?_eq_some admits)
    exact (((succeeds_descriptor_iff _ ty).mpr declared).map _).bind fun _ => succeeds_ok _

/-- The lines of a method can be selected. -/
theorem succeeds_lines {scope : Scope} {body : List Stmt}
    (compiles : scope.Compiles body frame.method) (describable : scope.Describable)
    (complete : scope.Complete (everyNode.onBody body)) (headed : Headed frame.code) :
    Succeeds frame.lines := by
  have admitted := compiles.arranged.admitted
  have expressible := compiles.expressible describable complete
  have allocated : frame.method.registers =
      .allocate scope.receiverType? frame.method.params frame.method.body := by
    obtain ⟨_, _, _, -, isCode⟩ := compiles
    rw [isCode]
    rfl
  refine (succeeds_mapM fun instr inBody => ?_).map _
  refine succeeds_select headed (expressible instr inBody) (fun operand reads => ?_) ?_
  · exact succeeds_load describable.table allocated inBody reads
      (admitted instr inBody operand reads)
  · rintro dest rhs ty rfl
    exact succeeds_slot allocated inBody (List.mem_cons_self ..)

end Frame

/-! ### Classes -/

/-- The text of a method can be written. -/
theorem succeeds_methodText {scope : Scope} {body : List Stmt} {code : ClassCode}
    {method : MethodCode} (compiles : scope.Compiles body method)
    (describable : scope.Describable) (complete : scope.Complete (everyNode.onBody body))
    (headed : Headed code) (member : method ∈ code.methods) (limits : Limits) :
    Succeeds (methodText limits code method) :=
  (headed method member).bind fun _ =>
    (Frame.succeeds_lines compiles describable complete headed).bind fun _ => succeeds_ok _

end Jasmin

/-- Nothing is left out if new objects have classes with names and only methods without a result
return nothing. -/
theorem Scope.complete_onBody {scope : Scope} {body : List Stmt}
    (named : ∀ pos className, .newObject pos className ∈ everyExpr.onBody body → className ≠ "")
    (returns : ∀ pos, .ret pos none ∈ everyStmt.onBody body →
      scope.method.returnType.isVoid = true) : scope.Complete (everyNode.onBody body) := by
  have exprs := (implies_everyNode everyExpr fun expr => expr ∈ everyExpr.onBody body).onBody
    fun _ member => member
  have stmts := (implies_everyNode everyStmt fun stmt => stmt ∈ everyStmt.onBody body).onBody
    fun _ member => member
  intro node member
  rw [isComplete.eq_def]
  split
  · next pos className =>
    exact bne_iff_ne.mpr (named pos className (exprs _ member _ (List.mem_singleton_self _)))
  · next pos => exact returns pos (stmts _ member _ (List.mem_singleton_self _))
  · rfl

namespace ClassTable

open Jasmin

/-- Every method of the code of a program is that of a declared method. -/
theorem compiles_of_mem_ofProgram {program : Program} {before : Counters} {code : ClassCode}
    (lowered : ((ofProgram program).lower program before).1 = .ok code) :
    ∀ method ∈ code.methods, ∃ decl ∈ program.classDecl.methods,
      Scope.Compiles ⟨ofProgram program, .ofDecl decl⟩ decl.body method := by
  have compiled := compiles_of_lower_ofProgram lowered
  generalize program.classDecl.methods = decls, code.methods = methods at compiled ⊢
  induction compiled with
  | nil => exact nofun
  | cons first _ inductionHypothesis =>
    refine List.forall_mem_cons.mpr ⟨⟨_, List.mem_cons_self, first⟩, fun method member => ?_⟩
    obtain ⟨decl, inRest, compiles⟩ := inductionHypothesis method member
    exact ⟨decl, List.mem_cons_of_mem _ inRest, compiles⟩

/-- If all declared types can be described, all classes of new objects have names and no method
with a result returns nothing, then assembly is built for whatever lowering produces. -/
theorem build_succeeds_of_lower {program : Program} {before : Counters} {code : ClassCode}
    (describable : (ofProgram program).Describable)
    (named : ∀ decl ∈ program.classDecl.methods, ∀ pos className,
      .newObject pos className ∈ everyExpr.onBody decl.body → className ≠ "")
    (returns : ∀ decl ∈ program.classDecl.methods, ∀ pos,
      .ret pos none ∈ everyStmt.onBody decl.body → decl.returnType.ty.isVoid = true)
    (lowered : ((ofProgram program).lower program before).1 = .ok code) (limits : Limits) :
    ∃ text, (Assembler.build { code, limits }).1 = .ok text := by
  have compiled := compiles_of_mem_ofProgram lowered
  have isDescribable (decl : MethodDecl) (member : decl ∈ program.classDecl.methods) :
      Scope.Describable ⟨ofProgram program, .ofDecl decl⟩ :=
    ⟨describable, List.mem_map_of_mem member⟩
  have headed : Headed code := by
    intro method member
    obtain ⟨decl, inClass, _, _, _, -, rfl⟩ := compiled method member
    have declared := (isDescribable decl inClass).declared
    exact succeeds_methodDescriptor (List.forall_mem_map.mpr (describable.params _ declared))
      (describable.returnTypes _ declared)
  have fields : Succeeds (code.fields.mapM (fieldText code)) := by
    rw [(compiles_of_lower lowered).1]
    exact succeeds_mapM fun field member =>
      ((succeeds_descriptor_iff _ _).mpr (describable.fields field member)).bind fun _ =>
        succeeds_ok _
  have methods : Succeeds (code.methods.mapM (methodText limits code)) := by
    refine succeeds_mapM fun method member => ?_
    obtain ⟨decl, inClass, compiles⟩ := compiled method member
    exact succeeds_methodText compiles (isDescribable decl inClass)
      (Scope.complete_onBody (named decl inClass) (returns decl inClass)) headed member limits
  obtain ⟨text, written⟩ : Succeeds (classText limits code) :=
    fields.bind fun _ => methods.bind fun _ => succeeds_ok _
  refine ⟨text, ?_⟩
  simp only [Assembler.build, written]

end ClassTable

/-- A class whose method stores its trailing arguments in a field, prints a new object and the
field, and returns what it gives for a truth value, which no check accepts as an integer. -/
def Program.relay : Program where
  imports := [⟨["Io"], .nowhere⟩]
  classDecl :=
    { name := "Relay"
      superClass := none
      fields := [⟨.ofTy .nowhere .intArray, "kept", .nowhere⟩]
      methods :=
        [{ name := "pass"
           isPublic := true
           isStatic := false
           returnType := .ofTy .nowhere .int
           params := [⟨.ofTy .nowhere .int, "n", true, .nowhere⟩]
           locals := []
           body :=
             [.assign .nowhere (.name .nowhere "kept") (.name .nowhere "n"),
              .eval .nowhere (.call .nowhere (some (.name .nowhere "Io")) "print"
                [.newObject .nowhere "Relay", .name .nowhere "kept"]),
              .ret .nowhere (some (.call .nowhere none "pass" [.literal .nowhere (.bool true)]))]
           pos := .nowhere }]
      pos := .nowhere }
  pos := .nowhere

theorem build_succeeds_of_lower_relay :
    (∃ report, Check.runAll (Check.standard none) .relay (.ofProgram .relay) = .ok report ∧
      report.hasErrors = true) ∧
    ∃ code text, ((ClassTable.ofProgram .relay).lower .relay {}).1 = .ok code ∧
      (Jasmin.Assembler.build { code, limits := {} }).1 = .ok text := by
  refine ⟨⟨_, rfl, rfl⟩, ?_⟩
  obtain ⟨code, lowered⟩ : ∃ code, ((ClassTable.ofProgram .relay).lower .relay {}).1 = .ok code :=
    ⟨_, rfl⟩
  have describable : (ClassTable.ofProgram .relay).Describable := by
    constructor <;> decide
  obtain ⟨text, built⟩ := ClassTable.build_succeeds_of_lower describable
    (by simp [Program.relay, onBody, onStmt, onExpr, onExprs, everyExpr])
    (by simp [Program.relay, onBody, onStmt, onExpr, onExprs, everyStmt]) lowered {}
  exact ⟨code, text, lowered, built⟩

end JavaMinus
