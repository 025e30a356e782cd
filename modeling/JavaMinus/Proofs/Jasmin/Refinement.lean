/-
This file shows that the lines of a method refine its three-address code. An
instruction counts as one step, and so does an allocation together with the
constructor call behind it. From related states with an empty operand stack, a
step of the code is matched by a run of the lines that leads to related states
with an empty operand stack, or to the same end with the same result. Step by
step, a whole run of the method is matched.
-/

import JavaMinus.Proofs.Jasmin.Simulation

namespace JavaMinus

namespace Jasmin

/-! ### Instructions in their places -/

/-- A regular instruction runs no constructor. -/
theorem constructedAt_of_regular {scope : Scope} {code : List Instr} {index : Nat} {instr : Instr}
    (fetched : code[index]? = some instr) (isRegular : scope.Regular instr) :
    constructedAt code index = none := by
  rw [constructedAt, fetched]
  split
  · next same =>
    rw [Option.some.inj same] at isRegular
    exact absurd rfl isRegular.performs
  · rfl

/-- Arranged code begins with no constructor call. -/
theorem constructedAt_zero {scope : Scope} {code : List Instr} (arranged : scope.Arranged code) :
    constructedAt code 0 = none := by
  cases arranged with
  | nil | allocation => rfl
  | regular isRegular => exact constructedAt_of_regular rfl isRegular

/-- The constructor call of an object is where it stands. -/
theorem constructedAt_of_constructorCall {code : List Instr} {index : Nat} {operand : Operand}
    (fetched : code[index]? = some (.call (Scope.constructorCall operand))) :
    constructedAt code index = some operand := by
  rw [constructedAt, fetched]
  rfl

/-- What an instruction of arranged code is, and what runs next. -/
inductive Role (scope : Scope) (code : List Instr) (index : Nat) : Instr → Prop
  | regular {instr} (isRegular : scope.Regular instr)
      (plain : constructedAt code (index + 1) = none) : Role scope code index instr
  | allocates {dest className} (named : scope.Names dest)
      (next : code[index + 1]? =
        some (.call (Scope.constructorCall (.var dest (.named className))))) :
      Role scope code index (.assign dest (.newObject className) (.named className))
  | constructs {dest className} (named : scope.Names dest)
      (plain : constructedAt code (index + 1) = none) :
      Role scope code index (.call (Scope.constructorCall (.var dest (.named className))))

theorem Role.shift {scope : Scope} {code : List Instr} {first instr : Instr} {index : Nat}
    (role : Role scope code index instr) : Role scope (first :: code) (index + 1) instr := by
  cases role with
  | regular isRegular plain => exact .regular isRegular plain
  | allocates named next => exact .allocates named next
  | constructs named plain => exact .constructs named plain

theorem role_of_arranged {scope : Scope} {code : List Instr} (arranged : scope.Arranged code)
    {index : Nat} {instr : Instr} (fetched : code[index]? = some instr) :
    Role scope code index instr := by
  induction arranged generalizing index with
  | nil => cases fetched
  | allocation named rest inductionHypothesis =>
    match index with
    | 0 =>
      obtain rfl := Option.some.inj fetched
      exact .allocates named rfl
    | 1 =>
      obtain rfl := Option.some.inj fetched
      exact .constructs named (constructedAt_zero rest)
    | index + 2 => exact (inductionHypothesis fetched).shift.shift
  | regular isRegular rest inductionHypothesis =>
    cases index with
    | zero =>
      obtain rfl := Option.some.inj fetched
      exact .regular isRegular (constructedAt_zero rest)
    | succ index => exact (inductionHypothesis fetched).shift

/-! ### Steps -/

/-- What is asked of a method so that its lines refine it. -/
structure Frame.Refinable (frame : Frame) (scope : Scope) (blocks : List (List Line)) : Prop where
  suits : frame.Suits scope
  arranged : scope.Arranged frame.method.body
  selected : List.Forall₂ frame.Selects frame.method.body blocks
  receiverless : frame.method.isStatic = true →
    ∀ instr ∈ frame.method.body, ∀ operand ∈ instr.operands, operand.usesReceiver = false

variable {frame : Frame} {scope : Scope} {blocks : List (List Line)} {checked : Bool}
  {state : State} {machine : Machine} {index : Nat} {point : Point}

theorem Frame.Refinable.ready (refinable : frame.Refinable scope blocks) {instr : Instr}
    (fetched : frame.method.body[index]? = some instr)
    (admits : ∀ operand ∈ instr.operands, scope.Admits operand)
    (fits : checked = true → instr.Fits state) :
    ∀ operand ∈ instr.operands, frame.Ready scope checked state operand := by
  intro operand member
  have inBody := List.mem_of_getElem? fetched
  exact ⟨admits operand member,
    fun isStatic => refinable.receiverless isStatic instr inBody operand member,
    fun isChecked => (fits isChecked).operands operand member⟩

/-- The lines of an instruction lead to where the instruction leads. -/
theorem Frame.Refinable.catches (refinable : frame.Refinable scope blocks)
    (fits : checked = true → ∀ instr, frame.method.body[index]? = some instr → instr.Fits state)
    (settled : Settled frame.method.body index state machine)
    (related : frame.Related state machine)
    (advanced : advance frame.method.body (.before index state) = some point) :
    frame.Catches checked blocks (.before (offset blocks index) machine) point := by
  cases fetched : frame.method.body[index]? with
  | none =>
    rw [advance, fetched] at advanced
    obtain rfl := Option.some.inj advanced
    have beyond : blocks.length ≤ index := by
      rw [← refinable.selected.length_eq]
      exact List.getElem?_eq_none_iff.mp fetched
    refine ⟨.ended .fellThrough machine, Relation.ReflTransGen.single ?_, rfl, related⟩
    rw [follow, offset_of_length_le beyond, List.getElem?_eq_none (Nat.le_refl _)]
  | some instr =>
    rw [advance_before fetched] at advanced
    obtain ⟨block, found, selects⟩ := block_of_instr refinable.selected fetched
    have instrFits (isChecked : checked = true) : instr.Fits state := fits isChecked instr fetched
    rw [Settled] at settled
    cases role_of_arranged refinable.arranged fetched with
    | regular isRegular plain =>
      rw [constructedAt_of_regular fetched isRegular] at settled
      exact selects.catches found refinable.selected isRegular refinable.suits
        (refinable.ready fetched isRegular.operands instrFits)
        (fun isChecked => (instrFits isChecked).result) plain related settled advanced
    | allocates named next =>
      rw [constructedAt, fetched] at settled
      exact selects.catchesAllocation found named refinable.suits
        (fun isChecked => (instrFits isChecked).result) (constructedAt_of_constructorCall next)
        related settled advanced
    | constructs named plain =>
      rw [constructedAt_of_constructorCall fetched] at settled
      obtain ⟨id, read, stack, isObject⟩ := settled
      have ready := refinable.ready fetched (List.forall_mem_singleton.mpr named) instrFits
      have caught := selects.catchesConstructor found refinable.suits
        (List.forall_mem_singleton.mp ready) plain related read stack isObject
      simp only [Instr.perform, Scope.constructorCall, read] at advanced
      rwa [← Option.some.inj advanced]

/-- A run of the code is matched by a run of the lines. -/
theorem Frame.Refinable.catchesRun (refinable : frame.Refinable scope blocks) {start : Point}
    {place : Place} (run : Reaches frame.method.body start point)
    (fits : checked = true → ∀ index state instr,
      Reaches frame.method.body start (.before index state) → frame.method.body[index]? = some instr → instr.Fits state)
    (matching : frame.Matches blocks start place) : frame.Catches checked blocks place point := by
  induction run with
  | refl => exact ⟨place, .refl, matching⟩
  | @tail middle point run step inductionHypothesis =>
    obtain ⟨between, reached, matched⟩ := inductionHypothesis
    cases middle with
    | ended ending state => cases step
    | before index state =>
      cases between with
      | ended other machine => exact matched.elim
      | before position machine =>
        obtain ⟨rfl, settled, related⟩ := matched
        refine .prepend reached (refinable.catches ?_ settled related step)
        exact fun isChecked instr fetched => fits isChecked index state instr run fetched

/-! ### Strides -/

/-- What counts as one step: an allocation goes together with the constructor call behind it. -/
def stride (code : List Instr) (index : Nat) (state : State) : Option Point :=
  match code[index]? with
  | some (.assign _ (.newObject _) _) => (advance code (.before index state)).bind (advance code)
  | _ => advance code (.before index state)

/-- Runs stand at the same place in related states, with an empty operand stack. -/
def Frame.Corresponds (frame : Frame) (blocks : List (List Line)) : Point → Place → Prop
  | .before index state, .before start machine =>
    start = offset blocks index ∧ machine.stack = [] ∧ frame.Related state machine
  | .ended ending state, .ended other machine => other = ending ∧ frame.Related state machine
  | _, _ => False

/-- No constructor runs next. -/
def Plain (code : List Instr) : Point → Prop
  | .before index _ => constructedAt code index = none
  | .ended _ _ => True

theorem Frame.Matches.corresponds {place : Place} (matching : frame.Matches blocks point place)
    (plain : Plain frame.method.body point) : frame.Corresponds blocks point place := by
  cases point with
  | ended => cases place <;> exact matching
  | before index state =>
    cases place with
    | ended => exact matching
    | before =>
      obtain ⟨same, settled, related⟩ := matching
      rw [Settled, show constructedAt _ index = none from plain] at settled
      exact ⟨same, settled, related⟩

theorem plain_of_jumpTo {code : List Instr} {target : Label}
    (jumped : jumpTo code target state = some point) : Plain code point := by
  rw [jumpTo, Option.map_eq_some_iff] at jumped
  obtain ⟨index, found, rfl⟩ := jumped
  exact constructedAt_of_labelPosition? found

theorem plain_of_proceed {α : Type} {code : List Instr} {action : Exec α}
    {next : α → State → Option Point} (proceeded : proceed state action next = some point)
    (plain : ∀ result after, next result after = some point → Plain code point) :
    Plain code point := by
  rw [proceed, State.act] at proceeded
  split at proceeded
  · exact plain _ _ proceeded
  · obtain rfl := Option.some.inj proceeded
    trivial
  · cases proceeded

/-- An instruction leads to the next one, to a label or to an end. -/
theorem plain_of_perform {code : List Instr} {instr : Instr}
    (plain : constructedAt code (index + 1) = none)
    (performed : instr.perform code index state = some point) : Plain code point := by
  have next {after : State} (same : some (Point.before (index + 1) after) = some point) :
      Plain code point := by
    obtain rfl := Option.some.inj same
    exact plain
  cases instr with
  | assign | storeElement => exact plain_of_proceed performed fun _ _ => next
  | putField =>
    rw [Instr.perform] at performed
    split at performed
    · exact next performed
    · cases performed
  | label => exact next performed
  | goto => exact plain_of_jumpTo performed
  | branch =>
    refine plain_of_proceed performed fun taken after continues => ?_
    cases taken with
    | true => exact plain_of_jumpTo continues
    | false => exact next continues
  | call =>
    rw [Instr.perform] at performed
    split at performed
    · split at performed
      · exact next performed
      · cases performed
    · cases performed
  | ret =>
    obtain rfl := Option.some.inj performed
    trivial
  | _ => cases performed

/-- A constructor call behind an allocation finds the new object. -/
theorem fits_constructor {code : List Instr} {dest className : String} {after : State}
    (fits : Instr.ResultFits state (.assign dest (.newObject className) (.named className)))
    (allocated : Instr.perform code index state
      (.assign dest (.newObject className) (.named className)) = some (.before (index + 1) after)) :
    Instr.Fits after (.call (Scope.constructorCall (.var dest (.named className)))) := by
  obtain rfl := (Point.before.inj (Option.some.inj allocated)).2
  refine ⟨List.forall_mem_singleton.mpr ?_, trivial⟩
  rw [Operand.Fits, State.setVar_vars_self]
  exact fits _ _ rfl

/-- A stride over a regular instruction is a step. -/
theorem stride_of_regular {code : List Instr} {instr : Instr}
    (fetched : code[index]? = some instr) (isRegular : scope.Regular instr) :
    stride code index state = instr.perform code index state := by
  rw [stride, fetched]
  split
  · next same =>
    rw [Option.some.inj same] at isRegular
    exact isRegular.performs.2.elim
  · exact advance_before fetched state

/-- The lines lead from an empty operand stack to where a stride leads, with an empty one. -/
theorem Frame.Refinable.catchesStride (refinable : frame.Refinable scope blocks)
    (plain : constructedAt frame.method.body index = none)
    (fits : checked = true → ∀ instr, frame.method.body[index]? = some instr → instr.Fits state)
    (related : frame.Related state machine) (empty : machine.stack = [])
    (strode : stride frame.method.body index state = some point) :
    ∃ place, Runs checked blocks.flatten (.before (offset blocks index) machine) place ∧
      frame.Corresponds blocks point place := by
  have settled : Settled frame.method.body index state machine := by
    rw [Settled, plain]
    exact empty
  cases fetched : frame.method.body[index]? with
  | none =>
    rw [stride, fetched] at strode
    obtain ⟨place, run, matching⟩ := refinable.catches fits settled related strode
    rw [advance, fetched] at strode
    obtain rfl := Option.some.inj strode
    exact ⟨place, run, matching.corresponds trivial⟩
  | some instr =>
    cases role_of_arranged refinable.arranged fetched with
    | regular isRegular plainNext =>
      rw [stride_of_regular fetched isRegular] at strode
      obtain ⟨place, run, matching⟩ :=
        refinable.catches fits settled related ((advance_before fetched state).trans strode)
      exact ⟨place, run, matching.corresponds (plain_of_perform plainNext strode)⟩
    | constructs =>
      rw [constructedAt_of_constructorCall fetched] at plain
      cases plain
    | @allocates dest className named next =>
      simp only [stride, fetched, Option.bind_eq_some_iff] at strode
      obtain ⟨middle, allocated, constructed⟩ := strode
      obtain ⟨between, run, matching⟩ := refinable.catches fits settled related allocated
      rw [advance_before fetched] at allocated
      obtain ⟨after, rfl⟩ : ∃ after, middle = .before (index + 1) after :=
        ⟨_, (Option.some.inj allocated).symm⟩
      cases between with
      | ended => exact matching.elim
      | before position machine =>
        obtain ⟨rfl, settled, related⟩ := matching
        have nextFits (isChecked : checked = true) (instr : Instr)
            (same : frame.method.body[index + 1]? = some instr) : instr.Fits after := by
          obtain rfl := Option.some.inj (next.symm.trans same)
          exact fits_constructor (fits isChecked _ fetched).result allocated
        obtain ⟨place, rest, matching⟩ := refinable.catches nextFits settled related constructed
        rw [advance_before next] at constructed
        refine ⟨place, run.trans rest, matching.corresponds (plain_of_perform ?_ constructed)⟩
        cases role_of_arranged refinable.arranged next with
        | regular isRegular => exact absurd rfl isRegular.performs
        | constructs _ plain => exact plain

/-! ### Compiled methods -/

/-- Lowering and the allocation of registers provide what a frame needs. -/
theorem Frame.suits_of_compiles {body : List Stmt} {methods : List MethodCode}
    {method : MethodCode} (compiles : scope.Compiles body method)
    (few : method.registers.size ≤ UInt16.size)
    (unshadowed : "this" ∉ (scope.method.params ++ scope.method.locals).map Binding.name) :
    Frame.Suits ⟨scope.table.classCode methods, method⟩ scope := by
  obtain ⟨before, code, after, -, rfl⟩ := compiles
  refine ⟨rfl, rfl, Registers.valid_allocate .., few, fun isInstance => ?_, fun name named => ?_⟩
  · have receiver : scope.receiverType? = some scope.table.classType :=
      if_neg (ne_of_eq_of_ne isInstance (by decide))
    refine ⟨scope.table.classType, ?_⟩
    rw [Scope.methodCode, receiver]
    exact Registers.get?_this ..
  · rintro rfl
    rcases named with ⟨found, resolved, notField⟩ | ⟨number, same⟩
    · exact unshadowed (Scope.mem_declared_of_lookup? resolved notField)
    · exact tempName_ne_this number same.symm

/-- The lines of the blocks simulate the code of the method. Step by step, they lead from an empty
operand stack to where the code leads, with an empty operand stack; a run of the method that ends is
matched by a run of the lines that ends in the same way. On a checked machine this is said of
instructions that move values of the kinds that their types promise. -/
structure Frame.Simulates (frame : Frame) (checked : Bool) (blocks : List (List Line)) :
    Prop where
  step : ∀ index state machine point, constructedAt frame.method.body index = none →
    (checked = true → ∀ instr, frame.method.body[index]? = some instr → instr.Fits state) →
    frame.Related state machine → machine.stack = [] →
    stride frame.method.body index state = some point →
    ∃ place, Runs checked blocks.flatten (.before (offset blocks index) machine) place ∧
      frame.Corresponds blocks point place
  run : ∀ start machine ending final,
    (checked = true → ∀ index state instr,
      Reaches frame.method.body (.before 0 start) (.before index state) →
      frame.method.body[index]? = some instr → instr.Fits state) →
    frame.Related start machine → machine.stack = [] →
    Reaches frame.method.body (.before 0 start) (.ended ending final) →
    ∃ last, Runs checked blocks.flatten (.before 0 machine) (.ended ending last) ∧
      frame.Related final last

theorem Frame.Refinable.simulates (refinable : frame.Refinable scope blocks) (checked : Bool) :
    frame.Simulates checked blocks where
  step _ _ _ _ plain fits related empty strode :=
    refinable.catchesStride plain fits related empty strode
  run start machine ending final fits related empty run := by
    have settled : Settled frame.method.body 0 start machine := by
      rw [Settled, constructedAt_zero refinable.arranged]
      exact empty
    have matching : frame.Matches blocks (.before 0 start) (.before 0 machine) :=
      ⟨rfl, settled, related⟩
    obtain ⟨place, reached, matching⟩ := refinable.catchesRun run fits matching
    cases place with
    | before => exact matching.elim
    | ended other last =>
      obtain ⟨rfl, related⟩ := matching
      exact ⟨last, reached, related⟩

/-- For every method of a program, the lines that are selected are blocks of lines, one for each
instruction, which simulate the code of the method. -/
theorem lines_simulate {table : ClassTable} {program : Program} {before : Counters}
    {code : ClassCode} (lowered : (table.lower program before).1 = .ok code) :
    ∃ decls, table.scopes program = .ok decls ∧
      List.Forall₂ (fun decl method => ∀ checked lines,
        Frame.lines ⟨code, method⟩ = .ok lines → method.registers.size ≤ 65536 →
        "this" ∉ (decl.2.method.params ++ decl.2.method.locals).map Binding.name →
        (method.isStatic = true →
          ∀ instr ∈ method.body, ∀ operand ∈ instr.operands, operand.usesReceiver = false) →
        ∃ blocks, List.Forall₂ (fun instr block => Frame.select ⟨code, method⟩ instr = .ok block)
            method.body blocks ∧
          lines = blocks.flatten ∧ Frame.Simulates ⟨code, method⟩ checked blocks)
        decls code.methods := by
  obtain ⟨isCode, decls, paired, compiled⟩ := ClassTable.compiles_of_lower lowered
  refine ⟨decls, paired, compiled.imp ?_⟩
  rintro decl method ⟨rfl, compiles⟩ checked lines isLines few unshadowed receiverless
  obtain ⟨blocks, selected, rfl⟩ := Frame.blocks_of_lines isLines
  have suits : Frame.Suits ⟨code, method⟩ decl.2 := by
    rw [isCode]
    exact Frame.suits_of_compiles compiles few unshadowed
  have refinable : Frame.Refinable ⟨code, method⟩ decl.2 blocks :=
    ⟨suits, compiles.arranged, selected.imp fun _ _ => Frame.selects_of_select, receiverless⟩
  exact ⟨blocks, selected, rfl, refinable.simulates checked⟩

/-! ### A method that is run -/

/-- The state that a machine shows: variables are read in their slots. -/
def Frame.view (frame : Frame) (machine : Machine) (self : Nat) (fields : String → Value)
    (heap : Heap) : State where
  self := self
  fields := fields
  vars := fun name =>
    (frame.method.registers.get? name).elim .null fun register =>
      machine.locals register.slot.toNat
  heap := heap

/-- A class with a method that makes an object, adds to a field and returns the field. -/
def tallyProgram : Program where
  imports := []
  classDecl :=
    { name := "Tally"
      superClass := none
      fields := [⟨.ofTy .nowhere .int, "count", .nowhere⟩]
      methods :=
        [{ name := "add"
           isPublic := true
           isStatic := false
           returnType := .ofTy .nowhere .int
           params := [⟨.ofTy .nowhere .int, "k", false, .nowhere⟩]
           locals := [⟨.ofTy .nowhere (.named "Tally"), "t", .nowhere⟩]
           body :=
            [.assign .nowhere (.name .nowhere "t") (.newObject .nowhere "Tally"),
              .assign .nowhere count (.binary .nowhere (.arith .add) count (.name .nowhere "k")),
              .ret .nowhere (some count)]
           pos := .nowhere }]
      pos := .nowhere }
  pos := .nowhere
where
  count : Expr := .name .nowhere "count"

/-- The code of the method. -/
def tallyMethod : MethodCode where
  name := "add"
  isPublic := true
  isStatic := false
  params := [⟨"k", .int⟩]
  returnType := .int
  body := body
  registers := .allocate (some tally) [⟨"k", .int⟩] body
where
  tally : Ty := .named "Tally"
  count : Operand := .field "count" .int
  body : List Instr :=
    [.assign "t0" (.newObject "Tally") tally,
      .call (Scope.constructorCall (.var "t0" tally)),
      .assign "t" (.value (.var "t0" tally)) tally,
      .assign "t1" (.arith .add count (.var "k" .int) .int) .int,
      .putField (.this tally) "count" .int (.var "t1" .int),
      .ret (some count) .int]

def tallyFrame : Frame where
  code := (ClassTable.ofProgram tallyProgram).classCode [tallyMethod]
  method := tallyMethod

/-- The method is called with 4 on an object whose field holds 3. -/
def tallyMachine : Machine where
  stack := []
  locals := fun slot => if slot = 0 then .object 0 else .word 4
  fields := fun _ _ => .word 3
  heap := { objects := ["Tally"] }

def tallyState : State :=
  tallyFrame.view tallyMachine 0 (fun _ => .word 3) { objects := ["Tally"] }

theorem related_tally : tallyFrame.Related tallyState tallyMachine where
  locals name register found _ := by
    show _ = (tallyFrame.method.registers.get? name).elim _ _
    rw [found]
    rfl
  self _ := rfl
  fields _ _ _ _ _ := rfl
  heap := by decide +kernel

theorem lines_simulate_tally :
    ((ClassTable.ofProgram tallyProgram).lower tallyProgram {}).1 = .ok tallyFrame.code ∧
      ∃ lines last, tallyFrame.lines = .ok lines ∧
        Runs false lines (.before 0 tallyMachine) (.ended (.returned (some (.word 7))) last) ∧
        last.fields 0 ⟨"Tally", "count", .int⟩ = .word 7 := by
  have lowered : ((ClassTable.ofProgram tallyProgram).lower tallyProgram {}).1 =
      .ok tallyFrame.code := rfl
  obtain ⟨lines, isLines⟩ : ∃ lines, tallyFrame.lines = .ok lines := ⟨_, rfl⟩
  obtain ⟨decls, paired, simulated⟩ := lines_simulate lowered
  obtain rfl := Except.ok.inj paired
  obtain ⟨simulates, -⟩ := List.forall₂_cons.mp simulated
  obtain ⟨blocks, -, rfl, simulates⟩ :=
    simulates false lines isLines (by decide +kernel) (by decide +kernel) nofun
  have run : Reaches tallyFrame.method.body (.before 0 tallyState)
      (.ended (.returned (some (.word 7))) _) :=
    .cons rfl rfl (.cons rfl rfl (.cons rfl rfl (.cons rfl rfl (.cons rfl rfl (.single rfl rfl)))))
  obtain ⟨last, reached, related⟩ :=
    simulates.run tallyState tallyMachine _ _ nofun related_tally rfl run
  exact ⟨lowered, _, last, isLines, reached, related.fields "count" .int .int rfl rfl⟩

end Jasmin

end JavaMinus
