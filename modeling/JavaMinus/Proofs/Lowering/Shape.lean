/-
This file says what lowered code looks like, instruction by instruction. An
allocation is always followed by the constructor call on the variable it was
assigned to, and there is no other constructor call. Every other instruction is
regular: its operands are constants, variables of the method, temporaries,
fields by their declared type, or the receiver; it assigns to a variable of the
method or to a temporary; it reads and writes fields of the receiver only; and a
call whose result it assigns has one.
-/

import JavaMinus.Proofs.Lowering.Derivation

namespace JavaMinus

/-! ### Operands of an instruction -/

def CallTarget.operands : CallTarget → List Operand
  | .receiver operand => [operand]
  | _ => []

def Call.operands (call : Call) : List Operand := call.target.operands ++ call.args

def Condition.operands : Condition → List Operand
  | .less left right => [left, right]
  | .nonZero operand => [operand]

/-- The operands that an instruction reads, in order. -/
def Instr.operands : Instr → List Operand
  | .value operand => [operand]
  | .arith _ left right _ => [left, right]
  | .assign _ rhs _ => rhs.operands
  | .newObject _ | .label _ | .goto _ => []
  | .newArray size => [size]
  | .call invocation => invocation.operands
  | .getField receiver _ _ => [receiver]
  | .putField receiver _ _ stored => [receiver, stored]
  | .loadElement array position => [array, position]
  | .storeElement array position stored => [array, position, stored]
  | .arrayLength array => [array]
  | .branch condition _ => condition.operands
  | .discard inner => inner.operands
  | .ret result _ => result.toList

/-- The calls that an instruction makes. -/
def Instr.calls : Instr → List Call
  | .call invocation => [invocation]
  | .assign _ rhs _ => rhs.calls
  | .discard inner => inner.calls
  | _ => []

/-! ### Regular instructions -/

namespace Scope

/-- The name of a variable of the method or of a temporary. -/
def Names (scope : Scope) (name : String) : Prop :=
  (∃ found, scope.lookup? name = some found ∧ found.isField = false) ∨
    ∃ number, name = tempName number

/-- The type with which a field is declared. -/
def HasField (scope : Scope) (field : String) (ty : Ty) : Prop :=
  scope.table.field? field = some ⟨field, ty⟩

/-- An operand that lowering makes. -/
def Admits (scope : Scope) : Operand → Prop
  | .literal _ _ => True
  | .var name _ => scope.Names name
  | .field name ty => scope.HasField name ty
  | .this ty => ty = scope.table.classType

/-- A right-hand side that lowering makes, allocations apart. -/
def Computes (scope : Scope) : Instr → Prop
  | .newObject _ => False
  | .call call => call.kind ≠ .constructor ∧ call.returnType.isVoid = false
  | .getField receiver field ty =>
    receiver = .this scope.table.classType ∧ scope.HasField field ty
  | _ => True

/-- What is assigned to, which fields are written and which calls are made. -/
def Performs (scope : Scope) : Instr → Prop
  | .assign dest rhs _ => scope.Names dest ∧ scope.Computes rhs
  | .call call | .discard (.call call) => call.kind ≠ .constructor
  | .putField receiver field ty _ =>
    receiver = .this scope.table.classType ∧ scope.HasField field ty
  | _ => True

/-- An instruction that lowering makes, allocations and constructor calls apart. -/
structure Regular (scope : Scope) (instr : Instr) : Prop where
  operands : ∀ operand ∈ instr.operands, scope.Admits operand
  performs : scope.Performs instr

/-- Code of regular instructions, and of allocations each with its constructor call. -/
inductive Arranged (scope : Scope) : List Instr → Prop
  | nil : Arranged scope []
  | allocation {dest className rest} (named : scope.Names dest)
      (restArranged : Arranged scope rest) :
      Arranged scope (.assign dest (.newObject className) (.named className) ::
        .call (constructorCall (.var dest (.named className))) :: rest)
  | regular {instr rest} (isRegular : scope.Regular instr) (restArranged : Arranged scope rest) :
      Arranged scope (instr :: rest)

namespace Arranged

variable {scope : Scope} {first second code : List Instr}

theorem append (start : scope.Arranged first) (rest : scope.Arranged second) :
    scope.Arranged (first ++ second) := by
  induction start with
  | nil => exact rest
  | allocation named _ inductionHypothesis => exact .allocation named inductionHypothesis
  | regular isRegular _ inductionHypothesis => exact .regular isRegular inductionHypothesis

theorem concat {instr : Instr} (start : scope.Arranged code) (last : scope.Regular instr) :
    scope.Arranged (code ++ [instr]) :=
  start.append (.regular last .nil)

/-- Labels and jumps are regular. -/
theorem label (place : Label) (rest : scope.Arranged code) :
    scope.Arranged (.label place :: code) :=
  .regular ⟨nofun, trivial⟩ rest

theorem goto (target : Label) (rest : scope.Arranged code) :
    scope.Arranged (.goto target :: code) :=
  .regular ⟨nofun, trivial⟩ rest

theorem joined (target : Label) (start : scope.Arranged code) :
    scope.Arranged (Lower.joined target code) := by
  rw [Lower.joined]
  split
  · exact start
  · exact start.append (.goto target .nil)

/-- The diamond assigns constants. -/
theorem diamond {number : Nat} {result : String} (named : scope.Names result) :
    scope.Arranged (diamond number result) := by
  have constant (value : Bool) :
      scope.Regular (.assign result (.value (.bool value)) .boolean) := by
    refine ⟨fun operand member => ?_, named, trivial⟩
    rw [List.mem_singleton.mp member]
    trivial
  exact .label _ (.regular (constant false) (.goto _ (.label _ (.regular (constant true)
    (.label _ .nil)))))

end Arranged

end Scope

/-! ### All lowered code -/

/-- What a phrase leaves is what lowering makes. -/
def Phrase.Admitted (scope : Scope) : Phrase → Prop
  | .value _ _ result | .pack _ _ result => scope.Admits result
  | .values _ results => ∀ result ∈ results, scope.Admits result
  | .target _ _ kind result =>
    kind ≠ .constructor ∧ ∀ operand ∈ result.operands, scope.Admits operand
  | .call _ _ _ _ result =>
    result.kind ≠ .constructor ∧ ∀ operand ∈ result.operands, scope.Admits operand
  | _ => True

theorem Scope.names_nextTemp (scope : Scope) (counters : Counters) :
    scope.Names (scope.nextTemp counters) :=
  .inr ⟨_, rfl⟩

/-- A field that a name stands for is found by its own name. -/
theorem Scope.hasField_of_lookup? {scope : Scope} {name : String} {binding : Binding}
    (found : scope.lookup? name = some (.field binding)) :
    scope.HasField binding.name binding.ty := by
  have declared : scope.table.field? name = some binding := by
    rcases lookup?_cases found with ⟨other, same, -, declared⟩ | ⟨_, _, same, -⟩ | ⟨_, same, -⟩
    · rw [Variable.field.inj same]
      exact declared
    · cases same
    · cases same
  have named : binding.name = name := by
    simpa using List.find?_some declared
  rw [HasField, named, declared, ← named]

theorem Lowers.admitted {scope : Scope} {phrase : Phrase} {before after : Counters}
    {code : List Instr} (lowers : Lowers scope phrase before code after) :
    phrase.Admitted scope := by
  induction lowers with
  | field found => exact Scope.hasField_of_lookup? found
  | var resolved notField => exact .inl ⟨_, resolved, notField⟩
  | this => rfl
  | arith | newObject | newArray | index | length | callValue | materialize | pack =>
    exact scope.names_nextTemp _
  | arrayLiteral _ admitted | paren _ admitted => exact admitted
  | noValues => exact nofun
  | moreValues _ _ first rest => exact List.forall_mem_cons.mpr ⟨first, rest⟩
  | implicitStatic | implicitThis | onThis | onClass => exact ⟨nofun, nofun⟩
  | onValue _ _ _ admitted => exact ⟨nofun, List.forall_mem_singleton.mpr admitted⟩
  | unbound _ _ _ target args | bound _ _ _ _ target args | passed _ _ _ _ _ _ target args =>
    exact ⟨target.1, List.forall_mem_append.mpr ⟨target.2, args⟩⟩
  | packed _ _ _ _ _ _ target args array =>
    refine ⟨target.1, List.forall_mem_append.mpr ⟨target.2, List.forall_mem_append.mpr ⟨args, ?_⟩⟩⟩
    exact List.forall_mem_singleton.mpr array
  | _ => trivial

/-- A call whose value is not used is regular, discarded or not. -/
theorem Scope.Regular.standing {scope : Scope} {call : Call}
    (admitted : call.kind ≠ .constructor ∧ ∀ operand ∈ call.operands, scope.Admits operand) :
    scope.Regular (standing call) := by
  rw [Scope.standing]
  split
  · exact ⟨admitted.2, admitted.1⟩
  · exact ⟨admitted.2, admitted.1⟩

/-- An assignment to a variable is regular, also if it reads a field. -/
theorem Scope.Regular.toVariable {scope : Scope} {name : String} {ty : Ty} {operand : Operand}
    (declared : ∃ found, scope.lookup? name = some found ∧ found.isField = false)
    (admits : scope.Admits operand) :
    scope.Regular (.assign name (scope.rightHandSide operand) ty) := by
  cases operand with
  | field field fieldTy =>
    exact ⟨List.forall_mem_singleton.mpr rfl, .inl declared, rfl, admits⟩
  | literal _ _ | var _ _ | this _ =>
    exact ⟨List.forall_mem_singleton.mpr admits, .inl declared, trivial⟩

/-- The code of a phrase is arranged. -/
def Phrase.Arranged (scope : Scope) (code : List Instr) : Phrase → Prop
  | .fill array _ _ _ => scope.Admits array → scope.Arranged code
  | _ => scope.Arranged code

theorem Lowers.arranged {scope : Scope} {phrase : Phrase} {before after : Counters}
    {code : List Instr} (lowers : Lowers scope phrase before code after) :
    phrase.Arranged scope code := by
  induction lowers with
  | int | bool | field | var | this | noValues | implicitStatic | implicitThis
  | onThis | onClass | noStmts => exact .nil
  | filled => exact fun _ => .nil
  | decided => exact .goto _ .nil
  | newObject => exact .allocation (scope.names_nextTemp _) .nil
  | arith leftLowers rightLowers left right | index leftLowers rightLowers left right =>
    refine (left.append right).concat ⟨?_, scope.names_nextTemp _, trivial⟩
    exact List.forall_mem_cons.mpr ⟨leftLowers.admitted,
      List.forall_mem_singleton.mpr rightLowers.admitted⟩
  | newArray lowers arranged | length lowers arranged =>
    refine arranged.concat ⟨?_, scope.names_nextTemp _, trivial⟩
    exact List.forall_mem_singleton.mpr lowers.admitted
  | callValue callLowers valued arranged =>
    rw [Bool.or_eq_false_iff] at valued
    exact arranged.concat ⟨callLowers.admitted.2, scope.names_nextTemp _, callLowers.admitted.1,
      valued.1⟩
  | arrayLiteral _ arranged | paren _ arranged | not _ arranged | parenJump _ arranged
  | onValue _ _ _ arranged | block _ arranged | eval _ _ arranged => exact arranged
  | materialize _ _ arranged => exact arranged.append (.diamond (scope.names_nextTemp _))
  | less leftLowers rightLowers left right =>
    refine (left.append right).append (.regular ⟨?_, trivial⟩ (.goto _ .nil))
    exact List.forall_mem_cons.mpr ⟨leftLowers.admitted,
      List.forall_mem_singleton.mpr rightLowers.admitted⟩
  | and _ _ left right | or _ _ left right => exact left.append (.label _ right)
  | nonZero _ valueLowers arranged =>
    refine arranged.append (.regular ⟨?_, trivial⟩ (.goto _ .nil))
    exact List.forall_mem_singleton.mpr valueLowers.admitted
  | moreValues _ _ first rest | unbound _ _ _ first rest | bound _ _ _ _ first rest
  | passed _ _ _ _ _ _ first rest | moreStmts _ _ first rest => exact first.append rest
  | fillMore firstLowers _ first rest =>
    intro admits
    refine first.append (.regular ⟨?_, trivial⟩ (rest admits))
    exact List.forall_mem_cons.mpr ⟨admits, List.forall_mem_cons.mpr ⟨trivial,
      List.forall_mem_singleton.mpr firstLowers.admitted⟩⟩
  | pack _ fill =>
    refine .regular ⟨?_, scope.names_nextTemp _, trivial⟩ (fill (scope.names_nextTemp _))
    exact List.forall_mem_singleton.mpr trivial
  | packed _ _ _ _ _ _ first second third => exact first.append (second.append third)
  | ifThen _ _ jump thenBranch =>
    exact jump.append (.label _ ((thenBranch.joined _).append (.label _ (.label _ .nil))))
  | ifElse _ _ _ jump thenBranch elseBranch =>
    exact jump.append (.label _ ((thenBranch.joined _).append (.label _ (elseBranch.append
      (.label _ .nil)))))
  | whileLoop _ _ jump body =>
    exact .label _ (jump.append (.label _ (body.append (.goto _ (.label _ .nil)))))
  | evalCall _ callLowers arranged => exact arranged.concat (.standing callLowers.admitted)
  | assignField _ found valueLowers arranged =>
    refine arranged.concat ⟨?_, rfl, Scope.hasField_of_lookup? found⟩
    exact List.forall_mem_cons.mpr ⟨rfl, List.forall_mem_singleton.mpr valueLowers.admitted⟩
  | assignVariable _ resolved notField valueLowers arranged =>
    exact arranged.concat (.toVariable ⟨_, resolved, notField⟩ valueLowers.admitted)
  | assignElement _ arrayLowers positionLowers valueLowers array position value =>
    refine array.append (position.append (value.concat ⟨?_, trivial⟩))
    exact List.forall_mem_cons.mpr ⟨arrayLowers.admitted, List.forall_mem_cons.mpr
      ⟨positionLowers.admitted, List.forall_mem_singleton.mpr valueLowers.admitted⟩⟩
  | returnNothing => exact .regular ⟨nofun, trivial⟩ .nil
  | returnValue valueLowers arranged =>
    exact arranged.concat ⟨List.forall_mem_singleton.mpr valueLowers.admitted, trivial⟩

/-- The code of a method is arranged, also with the return that is added to it. -/
theorem Scope.Compiles.arranged {scope : Scope} {body : List Stmt} {method : MethodCode}
    (compiles : scope.Compiles body method) : scope.Arranged method.body := by
  obtain ⟨before, code, after, lowers, rfl⟩ := compiles
  have arranged : scope.Arranged code := lowers.arranged
  show scope.Arranged (scope.method.close code)
  rw [Signature.close]
  split
  · exact arranged.concat ⟨nofun, trivial⟩
  · exact arranged

end JavaMinus
