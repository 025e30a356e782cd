/-
This file shows that selected lines do what the three-address code does. States
of the code and of the machine are related when each variable is in its slot,
the receiver of an instance method is in the first slot, the fields of the
receiver agree under their descriptors, and the heaps agree up to the names of
classes. From related states each instruction leads to related states. The
operand stack is empty before and after, except between an allocation and the
constructor call behind it: there it holds the new object.

Slots are moved with the kind of value that the types promise. On a machine that
checks this, the instruction must keep the promise; on one that does not,
nothing is asked.
-/

import JavaMinus.Proofs.Jasmin.Selection
import JavaMinus.Proofs.Lowering.Shape
import JavaMinus.Proofs.Registers
import JavaMinus.Proofs.Semantics.Renaming

namespace JavaMinus

/-! ### Values that keep the promise of their types -/

/-- The variable holds a value of the kind that the operand promises. -/
def Operand.Fits (env : Env) : Operand → Prop
  | .var name ty => (Jasmin.Cell.ofTy ty).holds (env.vars name) = true
  | _ => True

/-- The value that an instruction assigns or returns is of the kind that its type promises. -/
def Instr.ResultFits (state : State) : Instr → Prop
  | .assign _ rhs ty => ∀ value heap, rhs.compute state.toEnv state.heap = .yields value heap →
    (Jasmin.Cell.ofTy ty).holds value = true
  | .ret (some operand) ty => (Jasmin.Cell.ofTy ty).holds (operand.read state.toEnv) = true
  | _ => True

/-- The instruction moves values of the kinds that its types promise. -/
structure Instr.Fits (state : State) (instr : Instr) : Prop where
  operands : ∀ operand ∈ instr.operands, operand.Fits state.toEnv
  result : instr.ResultFits state

/-- Whether an operand is or belongs to the receiver of the method. -/
def Operand.usesReceiver : Operand → Bool
  | .field _ _ | .this _ => true
  | _ => false

namespace Jasmin

/-! ### Constants -/

theorem toInt32_toInt8 {value : Int32} (low : -128 ≤ value) (high : value ≤ 127) :
    value.toInt8.toInt32 = value := by
  rw [← Int32.toInt_inj, Int8.toInt_toInt32, toInt_toInt8 low high]

theorem toInt32_toInt16 {value : Int32} (low : -32768 ≤ value) (high : value ≤ 32767) :
    value.toInt16.toInt32 = value := by
  rw [Int32.le_iff_toInt_le] at low high
  rw [← Int32.toInt_inj, Int16.toInt_toInt32, Int32.toInt_toInt16]
  exact Int.bmod_eq_of_le (by simpa using low) (by simp at high; omega)

/-- The shortest instruction for a constant pushes the constant. -/
theorem perform_push (checked : Bool) (lines : List Line) (position : Nat) (machine : Machine)
    (value : Int32) :
    (Line.push value).perform checked lines position machine =
      some (.before (position + 1) (machine.push (.word value))) := by
  unfold Line.push
  split
  · next short =>
    have low : -128 ≤ value := Int32.le_trans (by decide) short.1
    have high : value ≤ 127 := Int32.le_trans short.2 (by decide)
    rw [Line.perform, if_pos (short_toInt8 short), toInt32_toInt8 low high]
  · split
    · next byte => rw [Line.perform, toInt32_toInt8 byte.1 byte.2]
    · split
      · next twoBytes => rw [Line.perform, toInt32_toInt16 twoBytes.1 twoBytes.2]
      · rw [Line.perform]

theorem perform_loadSlot (checked : Bool) (lines : List Line) (position : Nat) (machine : Machine)
    (cell : Cell) (slot : UInt16) :
    (Line.loadSlot cell slot).perform checked lines position machine =
      loadFrom checked position machine cell slot.toNat := by
  unfold Line.loadSlot
  split <;> rfl

theorem perform_storeSlot (checked : Bool) (lines : List Line) (position : Nat) (machine : Machine)
    (cell : Cell) (slot : UInt16) :
    (Line.storeSlot cell slot).perform checked lines position machine =
      storeTo checked position machine cell slot.toNat := by
  unfold Line.storeSlot
  split <;> rfl

/-! ### Related states -/

/-- The machine holds what the state of the code holds. -/
structure Frame.Related (frame : Frame) (state : State) (machine : Machine) : Prop where
  locals : ∀ name register, frame.method.registers.get? name = some register → name ≠ "this" →
    machine.locals register.slot.toNat = state.vars name
  self : frame.method.isStatic = false → machine.locals 0 = .object state.self
  fields : ∀ name ty descriptor, frame.code.field? name = some ⟨name, ty⟩ →
    frame.code.descriptor ty = .ok descriptor →
    machine.fields state.self ⟨frame.code.classPath frame.code.name, name, descriptor⟩ =
      state.fields name
  heap : machine.heap = state.heap.rename frame.code.classPath

/-- What the lowering and the allocation of registers provide for a frame. -/
structure Frame.Suits (frame : Frame) (scope : Scope) : Prop where
  name : frame.code.name = scope.table.className
  fields : frame.code.fields = scope.table.fields
  valid : frame.method.registers.Valid
  few : frame.method.registers.size ≤ UInt16.size
  this : frame.method.isStatic = false →
    ∃ ty, frame.method.registers.get? "this" = some ⟨0, ty⟩
  unshadowed : ∀ name, scope.Names name → name ≠ "this"

theorem Frame.Suits.field?_of_hasField {frame : Frame} {scope : Scope} (suits : frame.Suits scope)
    {field : String} {ty : Ty} (declared : scope.HasField field ty) :
    frame.code.field? field = some ⟨field, ty⟩ := by
  rw [ClassCode.field?, suits.fields]
  exact declared

namespace Frame.Related

variable {frame : Frame} {scope : Scope} {state : State} {machine : Machine}

theorem withStack (related : frame.Related state machine) (stack : List Value) :
    frame.Related state { machine with stack := stack } :=
  ⟨related.locals, related.self, related.fields, related.heap⟩

theorem withHeap (related : frame.Related state machine) (heap : Heap) :
    frame.Related { state with heap := heap }
      { machine with heap := heap.rename frame.code.classPath } :=
  ⟨related.locals, related.self, related.fields, rfl⟩

/-- Variables have slots of their own, apart from the receiver. -/
theorem setVar (related : frame.Related state machine) (suits : frame.Suits scope)
    {name : String} {register : Register}
    (found : frame.method.registers.get? name = some register) (other : name ≠ "this")
    (value : Value) :
    frame.Related (state.setVar name value) (machine.setLocal register.slot.toNat value) where
  locals second secondRegister secondFound notThis := by
    by_cases same : second = name
    · subst same
      rw [found] at secondFound
      obtain rfl := Option.some.inj secondFound
      rw [State.setVar_vars_self]
      exact Function.update_self ..
    · rw [state.setVar_vars_of_ne value same,
        ← related.locals second secondRegister secondFound notThis]
      refine Function.update_of_ne (fun sameSlot => same ?_) ..
      exact suits.valid.slot_injective suits.few secondFound found (UInt16.toNat_inj.mp sameSlot)
  self isInstance := by
    obtain ⟨ty, thisFound⟩ := suits.this isInstance
    refine (Function.update_of_ne (fun sameSlot => other ?_) ..).trans (related.self isInstance)
    exact suits.valid.slot_injective suits.few found thisFound (UInt16.toNat_inj.mp sameSlot.symm)
  fields := related.fields
  heap := related.heap

/-- A field of the receiver is written under its own descriptor. -/
theorem setField (related : frame.Related state machine) {name : String} {ty : Ty}
    {descriptor : Descriptor} (declared : frame.code.field? name = some ⟨name, ty⟩)
    (described : frame.code.descriptor ty = .ok descriptor) (value : Value) :
    frame.Related (state.setField name value)
      (machine.setField state.self ⟨frame.code.classPath frame.code.name, name, descriptor⟩
        value) where
  locals := related.locals
  self := related.self
  fields second secondTy secondDescriptor secondDeclared secondDescribed := by
    simp only [State.setField, Machine.setField, Function.update_self]
    by_cases same : second = name
    · subst same
      rw [declared] at secondDeclared
      obtain rfl := congrArg Binding.ty (Option.some.inj secondDeclared)
      rw [described] at secondDescribed
      obtain rfl := Except.ok.inj secondDescribed
      rw [Function.update_self, Function.update_self]
    · rw [Function.update_of_ne (by simp [same]), Function.update_of_ne same]
      exact related.fields second secondTy secondDescriptor secondDeclared secondDescribed
  heap := related.heap

end Frame.Related

/-! ### Operands -/

section Running

variable {frame : Frame} {scope : Scope} {state : State} {machine : Machine} {checked : Bool}
  {lines part : List Line} {position : Nat}

/-- What is asked of an operand so that its lines push its value. -/
structure Frame.Ready (frame : Frame) (scope : Scope) (checked : Bool) (state : State)
    (operand : Operand) : Prop where
  admits : scope.Admits operand
  reachable : frame.method.isStatic = true → operand.usesReceiver = false
  fits : checked = true → operand.Fits state.toEnv

theorem Frame.Ready.isInstance {operand : Operand}
    (ready : frame.Ready scope checked state operand) (uses : operand.usesReceiver = true) :
    frame.method.isStatic = false := by
  cases isStatic : frame.method.isStatic with
  | false => rfl
  | true => exact absurd (ready.reachable isStatic) (by rw [uses]; decide)

theorem accepts_of_holds {cell : Cell} {value : Value}
    (holds : checked = true → cell.holds value = true) : cell.accepts checked value = true := by
  cases checked with
  | false => rfl
  | true => exact holds rfl

/-- The receiver of an instance method is in the first slot. -/
theorem perform_loadThis (related : frame.Related state machine)
    (isInstance : frame.method.isStatic = false) :
    Line.loadThis.perform checked lines position machine =
      some (.before (position + 1) (machine.push (.object state.self))) := by
  have accepted : Cell.accepts checked .reference (.object state.self) = true :=
    accepts_of_holds fun _ => rfl
  simp only [Line.loadThis, Line.perform, loadFrom, Fin.val_zero, related.self isInstance, accepted,
    if_true]

theorem Frame.Loads.runs {operand : Operand} (loads : frame.Loads operand part)
    (stands : StandsAt lines position part) (related : frame.Related state machine)
    (suits : frame.Suits scope) (ready : frame.Ready scope checked state operand) :
    Runs checked lines (.before position machine)
      (.before (position + part.length) (machine.push (operand.read state.toEnv))) := by
  cases loads with
  | literal => exact .single stands.head (perform_push ..)
  | @var name ty register found =>
    have held := related.locals name register found (suits.unshadowed name ready.admits)
    refine .single stands.head ?_
    have accepted : (Cell.ofTy ty).accepts checked (machine.locals register.slot.toNat) = true := by
      rw [held]
      exact accepts_of_holds ready.fits
    rw [perform_loadSlot, loadFrom, if_pos accepted, held]
    rfl
  | @field name ty descriptor described =>
    refine .cons stands.head (perform_loadThis related (ready.isInstance rfl))
      (.single stands.tail.head ?_)
    have held :=
      related.fields name ty descriptor (suits.field?_of_hasField ready.admits) described
    simp only [Line.perform, Machine.withTop, Machine.push, held]
    rfl
  | this =>
    exact .single stands.head (perform_loadThis related (ready.isInstance rfl))

/-- Operands are pushed one onto the other. -/
theorem Frame.LoadsAll.runs {operands : List Operand} (loads : frame.LoadsAll operands part)
    (stands : StandsAt lines position part) (related : frame.Related state machine)
    (suits : frame.Suits scope)
    (ready : ∀ operand ∈ operands, frame.Ready scope checked state operand) :
    Runs checked lines (.before position machine)
      (.before (position + part.length)
        ((operands.map (Operand.read state.toEnv)).foldl Machine.push machine)) := by
  induction loads generalizing position machine with
  | nil => exact .refl
  | cons first _ inductionHypothesis =>
    obtain ⟨firstReady, restReady⟩ := List.forall_mem_cons.mp ready
    rw [List.length_append, ← Nat.add_assoc]
    exact (first.runs stands.left related suits firstReady).trans
      (inductionHypothesis stands.right (related.withStack _) restReady)

/-! ### Instructions -/

/-- The operand whose constructor runs at a position. Before it the new object is on the stack. -/
def constructedAt (code : List Instr) (position : Nat) : Option Operand :=
  match code[position]? with
  | some (.call ⟨.constructor, .receiver operand, _, _, _⟩) => some operand
  | _ => none

/-- The stack is empty, but for a new object whose constructor runs next. -/
def Settled (code : List Instr) (position : Nat) (state : State) (machine : Machine) : Prop :=
  match constructedAt code position with
  | some operand => ∃ id, operand.read state.toEnv = .object id ∧ machine.stack = [.object id] ∧
    state.heap.objects[id]? = some operand.ty.base
  | none => machine.stack = []

/-- Runs of the code and of the machine stand at the same place in related states. -/
def Frame.Matches (frame : Frame) (blocks : List (List Line)) : Point → Place → Prop
  | .before position state, .before start machine =>
    start = offset blocks position ∧ Settled frame.method.body position state machine ∧
      frame.Related state machine
  | .ended ending state, .ended other machine => other = ending ∧ frame.Related state machine
  | _, _ => False

/-- From a place of the machine a run leads to where a run of the code stands. -/
def Frame.Catches (frame : Frame) (checked : Bool) (blocks : List (List Line)) (place : Place)
    (point : Point) : Prop :=
  ∃ final, Runs checked blocks.flatten place final ∧ frame.Matches blocks point final

variable {blocks : List (List Line)} {point : Point}

theorem Frame.Catches.prepend {place next : Place} (run : Runs checked blocks.flatten place next)
    (catches : frame.Catches checked blocks next point) :
    frame.Catches checked blocks place point := by
  obtain ⟨final, rest, matching⟩ := catches
  exact ⟨final, run.trans rest, matching⟩

theorem Frame.Catches.arrive {place : Place} {start index : Nat}
    (run : Runs checked blocks.flatten place (.before start machine))
    (same : start = offset blocks index) (settled : Settled frame.method.body index state machine)
    (related : frame.Related state machine) :
    frame.Catches checked blocks place (.before index state) :=
  ⟨_, run, same, settled, related⟩

/-- An action that does not depend on the names of classes does the same on both sides, and a trap
ends both runs. -/
theorem Frame.Related.act {α : Type} {action : Exec α} {next : α → State → Option Point}
    {line : Line} {below : Machine} (related : frame.Related state below)
    (answer : α → Machine → Option Place) (natural : action.Natural)
    (performed : proceed state action next = some point)
    (fetched : blocks.flatten[position]? = some line)
    (performs : line.perform checked blocks.flatten position machine = below.act action answer)
    (rest : ∀ result heap, action state.heap = .yields result heap →
      next result { state with heap := heap } = some point →
      ∃ place, answer result { below with heap := heap.rename frame.code.classPath } = some place ∧
        frame.Catches checked blocks place point) :
    frame.Catches checked blocks (.before position machine) point := by
  rw [Machine.act, related.heap, natural] at performs
  rw [proceed, State.act] at performed
  cases acted : action state.heap with
  | yields result heap =>
    rw [acted] at performed performs
    obtain ⟨place, answered, catches⟩ := rest result heap acted performed
    exact .prepend (.single fetched (performs.trans answered)) catches
  | stops trap heap =>
    rw [acted] at performed performs
    obtain rfl := Option.some.inj performed
    exact ⟨_, .single fetched performs, rfl, related.withHeap heap⟩
  | stuck =>
    rw [acted] at performed
    cases performed

/-- A line that pushes the result of an action. -/
theorem Frame.Related.pushes {action : Exec Value} {next : Value → State → Option Point}
    {line : Line} {below : Machine} {finish : Nat} (related : frame.Related state below)
    (natural : action.Natural) (performed : proceed state action next = some point)
    (fetched : blocks.flatten[position]? = some line)
    (performs : line.perform checked blocks.flatten position machine =
      pushResult position below action)
    (arrived : finish = position + 1)
    (rest : ∀ value heap, action state.heap = .yields value heap →
      next value { state with heap := heap } = some point →
      frame.Catches checked blocks (.before finish
        ({ below with heap := heap.rename frame.code.classPath }.push value)) point) :
    frame.Catches checked blocks (.before position machine) point := by
  subst arrived
  exact related.act _ natural performed fetched performs
    fun value heap computed continues => ⟨_, rfl, rest value heap computed continues⟩

/-- The lines of a right-hand side push its value. -/
theorem Frame.Evaluates.catches {rhs : Instr} {next : Value → State → Option Point}
    (evaluates : frame.Evaluates rhs part) (computes : scope.Computes rhs)
    (stands : StandsAt blocks.flatten position part) (related : frame.Related state machine)
    (suits : frame.Suits scope)
    (ready : ∀ operand ∈ rhs.operands, frame.Ready scope checked state operand)
    (performed : proceed state (rhs.compute state.toEnv) next = some point)
    (rest : ∀ value heap, rhs.compute state.toEnv state.heap = .yields value heap →
      next value { state with heap := heap } = some point →
      frame.Catches checked blocks (.before (position + part.length)
        ({ machine with heap := heap.rename frame.code.classPath }.push value)) point) :
    frame.Catches checked blocks (.before position machine) point := by
  cases evaluates with
  | value loads =>
    have run := loads.runs stands related suits (List.forall_mem_singleton.mp ready)
    refine .prepend run ?_
    have same := rest _ state.heap rfl performed
    rwa [← related.heap] at same
  | arith loads =>
    refine .prepend (loads.runs stands.left related suits ready) ?_
    exact related.pushes (.arithmetic _ _ _) performed stands.behind rfl
      (by rw [List.length_append, Nat.add_assoc]; rfl) rest
  | newObject => exact computes.elim
  | newArray loads =>
    refine .prepend (loads.runs stands.left related suits (List.forall_mem_singleton.mp ready)) ?_
    exact related.pushes (.newArray _) performed stands.behind rfl
      (by rw [List.length_append, Nat.add_assoc]; rfl) rest
  | call calls => cases performed
  | @getField receiver field ty descriptor lines loads described =>
    obtain ⟨rfl, declared⟩ := computes
    have computed : Instr.compute state.toEnv (.getField (.this scope.table.classType) field ty) =
        pure (state.fields field) := if_pos rfl
    have held := related.fields field ty descriptor (suits.field?_of_hasField declared) described
    rw [suits.name] at held
    refine .prepend (loads.runs stands.left related suits (List.forall_mem_singleton.mp ready)) ?_
    have caught := rest (state.fields field) state.heap (by rw [computed]; rfl)
      (by rwa [computed] at performed)
    rw [← related.heap, List.length_append, ← Nat.add_assoc, ← held] at caught
    exact .prepend (.single stands.behind rfl) caught
  | loadElement loads =>
    refine .prepend (loads.runs stands.left related suits ready) ?_
    exact related.pushes (.loadElement _ _) performed stands.behind rfl
      (by rw [List.length_append, Nat.add_assoc]; rfl) rest
  | arrayLength loads =>
    refine .prepend (loads.runs stands.left related suits (List.forall_mem_singleton.mp ready)) ?_
    exact related.pushes (.arrayLength _) performed stands.behind rfl
      (by rw [List.length_append, Nat.add_assoc]; rfl) rest

/-- No constructor runs at a label. -/
theorem constructedAt_of_labelPosition? {code : List Instr} {place : Label} {index : Nat}
    (found : labelPosition? code place = some index) : constructedAt code index = none := by
  obtain ⟨bound, isLabel, -⟩ := List.findIdx?_eq_some_iff_getElem.mp found
  rw [constructedAt, List.getElem?_eq_getElem bound, eq_of_beq isLabel]

/-- Jumps lead to the same place on both sides. -/
theorem Frame.Related.enter {target : Label}
    (selected : List.Forall₂ frame.Selects frame.method.body blocks)
    (related : frame.Related state machine) (empty : machine.stack = [])
    (jumped : jumpTo frame.method.body target state = some point) :
    ∃ place, enter blocks.flatten target machine = some place ∧
      frame.Catches checked blocks place point := by
  rw [jumpTo, Option.map_eq_some_iff] at jumped
  obtain ⟨index, found, rfl⟩ := jumped
  refine ⟨.before (offset blocks index) machine, ?_, _, .refl, rfl, ?_, related⟩
  · rw [Jasmin.enter, linePosition?_eq selected, found]
    rfl
  · rw [Settled, constructedAt_of_labelPosition? found]
    exact empty

/-- A line that branches goes to the same place as the branch. -/
theorem Frame.Related.branches {action : Exec Bool} {target : Label} {index : Nat} {line : Line}
    {below : Machine} (related : frame.Related state below)
    (selected : List.Forall₂ frame.Selects frame.method.body blocks) (natural : action.Natural)
    (performed : proceed state action (fun taken after =>
      if taken then jumpTo frame.method.body target after
      else some (.before (index + 1) after)) = some point)
    (fetched : blocks.flatten[position]? = some line)
    (performs : line.perform checked blocks.flatten position machine =
      below.act action fun taken after =>
        if taken then Jasmin.enter blocks.flatten target after
        else some (.before (position + 1) after))
    (behind : position + 1 = offset blocks (index + 1))
    (plain : constructedAt frame.method.body (index + 1) = none) (empty : below.stack = []) :
    frame.Catches checked blocks (.before position machine) point := by
  refine related.act _ natural performed fetched performs fun taken heap _ continues => ?_
  have relatedHeap := related.withHeap heap
  cases taken with
  | true => exact relatedHeap.enter selected empty continues
  | false =>
    obtain rfl := Option.some.inj continues
    refine ⟨_, rfl, .arrive .refl behind ?_ relatedHeap⟩
    rw [Settled, plain]
    exact empty

/-- The block of a regular instruction leads to where the instruction leads. -/
theorem Frame.Selects.catches {instr : Instr} {index : Nat} {block : List Line}
    (selects : frame.Selects instr block) (found : blocks[index]? = some block)
    (selected : List.Forall₂ frame.Selects frame.method.body blocks)
    (regular : scope.Regular instr) (suits : frame.Suits scope)
    (ready : ∀ operand ∈ instr.operands, frame.Ready scope checked state operand)
    (fits : checked = true → instr.ResultFits state)
    (plain : constructedAt frame.method.body (index + 1) = none)
    (related : frame.Related state machine) (empty : machine.stack = [])
    (performed : instr.perform frame.method.body index state = some point) :
    frame.Catches checked blocks (.before (offset blocks index) machine) point := by
  have stands := standsAt_block found
  have settled {state : State} {machine : Machine} (empty : machine.stack = []) :
      Settled frame.method.body (index + 1) state machine := by
    rw [Settled, plain]
    exact empty
  have behind : ∀ {lines : List Line} {line : Line}, block = lines ++ [line] →
      offset blocks index + lines.length + 1 = offset blocks (index + 1) := by
    rintro lines line rfl
    rw [offset_succ found, List.length_append, Nat.add_assoc]
    rfl
  cases selects with
  | @assign dest rhs ty register lines evaluates registered =>
    obtain ⟨named, computes⟩ := regular.performs
    refine evaluates.catches computes stands.left related suits ready performed
      fun value heap computed continues => ?_
    obtain rfl := Option.some.inj continues
    have accepted : (Cell.ofTy ty).accepts checked value = true :=
      accepts_of_holds fun isChecked => fits isChecked value heap computed
    have performs : (Line.storeSlot (.ofTy ty) register.slot).perform checked blocks.flatten
        (offset blocks index + lines.length)
        ({ machine with heap := heap.rename frame.code.classPath }.push value) =
          some (.before (offset blocks index + lines.length + 1)
            ({ machine with heap := heap.rename frame.code.classPath }.setLocal
              register.slot.toNat value)) := by
      rw [perform_storeSlot, storeTo]
      exact if_pos accepted
    exact .arrive (.single stands.behind performs) (behind rfl) (settled empty)
      ((related.withHeap heap).setVar suits registered (suits.unshadowed dest named) value)
  | @call invocation lines isVoid calls =>
    rw [Instr.perform] at performed
    split at performed
    · next isConstructor _ => exact absurd isConstructor regular.performs
    · cases performed
  | discardNothing => cases performed
  | discard => cases performed
  | @putField receiver field ty stored descriptor lines loads described =>
    obtain ⟨rfl, declared⟩ := regular.performs
    rw [Instr.perform, Operand.read, if_pos rfl] at performed
    obtain rfl := Option.some.inj performed
    refine .prepend (loads.runs stands.left related suits ready) ?_
    have written := related.setField (suits.field?_of_hasField declared) described
      (stored.read state.toEnv)
    rw [suits.name] at written
    exact .arrive (.single stands.behind rfl) (behind rfl) (settled empty) written
  | storeElement loads =>
    refine .prepend (loads.runs stands.left related suits ready) ?_
    refine related.act (fun _ after => some (.before _ after)) (.storeElement _ _ _) performed
      stands.behind rfl fun value heap computed continues => ⟨_, rfl, ?_⟩
    obtain rfl := Option.some.inj continues
    exact .arrive .refl (behind rfl) (settled empty) (related.withHeap heap)
  | label =>
    obtain rfl := Option.some.inj performed
    exact .arrive (.single stands.head rfl) (offset_succ found).symm (settled empty) related
  | goto =>
    obtain ⟨place, entered, catches⟩ := related.enter selected empty performed
    exact .prepend (.single stands.head entered) catches
  | ifLess loads =>
    refine .prepend (loads.runs stands.left related suits ready) ?_
    exact related.branches selected (.isLess _ _) performed stands.behind rfl (behind rfl) plain
      empty
  | ifNonZero loads =>
    refine .prepend (loads.runs stands.left related suits (List.forall_mem_singleton.mp ready)) ?_
    exact related.branches selected (.isTrue _) performed stands.behind rfl (behind rfl) plain empty
  | retVoid isVoid =>
    rw [Instr.perform, if_pos isVoid] at performed
    obtain rfl := Option.some.inj performed
    exact ⟨_, .single stands.head rfl, rfl, related⟩
  | @ret operand ty lines notVoid loads =>
    rw [Instr.perform, if_neg (by rw [notVoid]; decide)] at performed
    obtain rfl := Option.some.inj performed
    refine .prepend (loads.runs stands.left related suits (List.forall_mem_singleton.mp ready)) ?_
    have accepted : (Cell.ofTy ty).accepts checked (operand.read state.toEnv) = true :=
      accepts_of_holds fits
    exact ⟨_, .single stands.behind (if_pos accepted), rfl, related⟩

/-- An allocation leaves the new object on the stack for its constructor. -/
theorem Frame.Selects.catchesAllocation {dest className : String} {index : Nat}
    {block : List Line}
    (selects : frame.Selects (.assign dest (.newObject className) (.named className)) block)
    (found : blocks[index]? = some block) (named : scope.Names dest) (suits : frame.Suits scope)
    (fits : checked = true →
      Instr.ResultFits state (.assign dest (.newObject className) (.named className)))
    (constructs : constructedAt frame.method.body (index + 1) = some (.var dest (.named className)))
    (related : frame.Related state machine) (empty : machine.stack = [])
    (performed : Instr.perform frame.method.body index state
      (.assign dest (.newObject className) (.named className)) = some point) :
    frame.Catches checked blocks (.before (offset blocks index) machine) point := by
  have stands := standsAt_block found
  have next := offset_succ found
  obtain rfl := Option.some.inj performed
  cases selects with
  | @assign _ _ _ register lines evaluates registered =>
    cases evaluates
    let id := state.heap.objects.length
    let heap : Heap := { state.heap with objects := state.heap.objects ++ [className] }
    have accepted : (Cell.ofTy (.named className)).accepts checked (.object id) = true :=
      accepts_of_holds fun isChecked => fits isChecked (.object id) heap rfl
    have relatedHeap := (related.withHeap heap).withStack [.object id]
    have allocated : (Line.newObject (frame.code.classPath className)).perform checked
        blocks.flatten (offset blocks index) machine =
          some (.before (offset blocks index + 1)
            { machine with
              stack := [.object id]
              heap := heap.rename frame.code.classPath }) := by
      simp only [Line.perform, pushResult, Machine.act, JavaMinus.newObject, related.heap,
        Heap.rename, List.length_map, Machine.push, empty, List.map_append, List.map_cons,
        List.map_nil, heap, id]
    have stored : (Line.storeSlot (.ofTy (.named className)) register.slot).perform checked
        blocks.flatten (offset blocks index + 2)
        { machine with
          stack := [.object id, .object id]
          heap := heap.rename frame.code.classPath } =
        some (.before (offset blocks index + 3)
          (Machine.setLocal
            { machine with
              stack := [.object id]
              heap := heap.rename frame.code.classPath }
            register.slot.toNat (.object id))) := by
      rw [perform_storeSlot, storeTo]
      exact if_pos accepted
    refine .arrive (.cons stands.head allocated (.cons stands.tail.head rfl
      (.single stands.tail.tail.head stored))) next.symm ?_
      (relatedHeap.setVar suits registered (suits.unshadowed dest named) (.object id))
    rw [Settled, constructs]
    refine ⟨id, State.setVar_vars_self _ dest _, rfl, ?_⟩
    exact List.getElem?_concat_length ..

/-- The constructor runs on the new object, which is dropped from the stack. -/
theorem Frame.Selects.catchesConstructor {operand : Operand} {index : Nat} {block : List Line}
    (selects : frame.Selects (.call (Scope.constructorCall operand)) block)
    (found : blocks[index]? = some block) (suits : frame.Suits scope)
    (ready : frame.Ready scope checked state operand)
    (plain : constructedAt frame.method.body (index + 1) = none)
    (related : frame.Related state machine) {id : Nat}
    (read : operand.read state.toEnv = .object id) (stack : machine.stack = [.object id])
    (isObject : state.heap.objects[id]? = some operand.ty.base) :
    frame.Catches checked blocks (.before (offset blocks index) machine)
      (.before (index + 1) state) := by
  have stands := standsAt_block found
  have next := offset_succ found
  cases selects with
  | call isVoid calls =>
    cases calls with
    | virtual isVirtual => cases isVirtual
    | static isStatic => cases isStatic
    | construct isConstructor targets =>
      cases targets with
      | receiver loads =>
        refine .prepend (loads.runs stands.left related suits ready) ?_
        have ofClass : machine.heap.objects[id]? =
            some (frame.code.classPath operand.ty.base) := by
          rw [related.heap, Heap.rename, List.getElem?_map, isObject, Option.map_some]
        have constructed (position : Nat) :
            (Line.construct (frame.code.classPath operand.ty.base)).perform checked blocks.flatten
              position (machine.push (operand.read state.toEnv)) =
                some (.before (position + 1) machine) := by
          rw [read]
          exact if_pos ofClass
        have dropped (position : Nat) : Line.pop.perform checked blocks.flatten position machine =
            some (.before (position + 1) { machine with stack := [] }) := by
          rw [Line.perform, Machine.withTop, stack]
        refine .arrive (.cons stands.behind (constructed _)
          (.single stands.right.tail.head (dropped _))) ?_ ?_ (related.withStack [])
        · rw [next, List.length_append, ← Nat.add_assoc]
          rfl
        · rw [Settled, plain]

end Running

end Jasmin

end JavaMinus
