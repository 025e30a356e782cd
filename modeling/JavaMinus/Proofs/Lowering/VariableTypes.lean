/-
This file shows that a variable has one type throughout a method. Where code reads
a variable, the type comes from the declaration that the name stands for, or from
the assignment that made the temporary; where code assigns to one, likewise. So a
variable that is read can be traced: to a declaration, or to an assignment with the
same type. Fields come before parameters and parameters before locals, and of several
declarations of a name the first one counts, so a name stands for one declaration
only. And a temporary is computed in one place, so all its occurrences have the type
it has there.

The register of a name has the type with which the name came up first, be it as a
parameter or in the code. Either way this is the type of all occurrences.
-/

import JavaMinus.Proofs.Allocation
import JavaMinus.Proofs.Lowering.Temporaries

namespace JavaMinus

namespace Scope

/-! ### Where variables come from -/

/-- The variable is a parameter or a local, of the type with which its name is found. -/
def Declares (scope : Scope) (binding : Binding) : Prop :=
  ∃ found, scope.lookup? binding.name = some found ∧ found.isField = false ∧
    found.ty = binding.ty

/-- The variable is declared, or its name stands for nothing. -/
def Accords (scope : Scope) (binding : Binding) : Prop :=
  scope.lookup? binding.name = none ∨ scope.Declares binding

/-- A temporary may have any type. -/
theorem accords_nextTemp (scope : Scope) (counters : Counters) (ty : Ty) :
    scope.Accords ⟨scope.nextTemp counters, ty⟩ :=
  .inl (scope.lookup?_freeTemp counters.temps)

/-- The code assigns to variables that agree with the scope, and not inside of other instructions.
Whatever it reads and leaves is an input, or is declared, or is what it assigns to. -/
structure Carries (scope : Scope) (inputs : List Binding) (code : List Instr)
    (outputs : List Binding) : Prop where
  writes : ∀ instr ∈ code, ∀ binding ∈ instr.destinations,
    (∃ rhs, instr = .assign binding.name rhs binding.ty) ∧ scope.Accords binding
  reads : ∀ binding ∈ code.flatMap Instr.sources ++ outputs,
    binding ∈ inputs ++ code.flatMap Instr.destinations ∨ scope.Declares binding

namespace Carries

variable {scope : Scope} {inputs outputs others : List Binding} {code first second : List Instr}

/-- No code, and an operand that needs none. -/
theorem ready (declared : ∀ binding ∈ outputs, scope.Declares binding) :
    scope.Carries inputs [] outputs where
  writes := nofun
  reads binding member := .inr (declared binding member)

theorem nil : scope.Carries inputs [] [] := .ready nofun

theorem leaving (carries : scope.Carries inputs code outputs) (subset : others ⊆ outputs) :
    scope.Carries inputs code others where
  writes := carries.writes
  reads binding member := by
    refine carries.reads binding (List.mem_append.mpr ?_)
    exact (List.mem_append.mp member).imp id fun isOutput => subset isOutput

theorem mono (carries : scope.Carries inputs code outputs) {larger : List Binding}
    (subset : inputs ⊆ larger) : scope.Carries larger code outputs where
  writes := carries.writes
  reads binding member := by
    refine (carries.reads binding member).imp (fun carried => List.mem_append.mpr ?_) id
    exact (List.mem_append.mp carried).imp (fun isInput => subset isInput) id

/-- Code one after the other. The second piece may read what the first one leaves. -/
theorem append (left : scope.Carries inputs first outputs) {between : List Binding}
    (right : scope.Carries between second others) (fits : between ⊆ outputs ++ inputs) :
    scope.Carries inputs (first ++ second) (outputs ++ others) where
  writes := List.forall_mem_append.mpr ⟨left.writes, right.writes⟩
  reads binding member := by
    have inLeft (member : binding ∈ first.flatMap Instr.sources ++ outputs) :
        binding ∈ inputs ++ (first ++ second).flatMap Instr.destinations ∨
          scope.Declares binding := by
      refine (left.reads binding member).imp (fun carried => ?_) id
      rw [List.flatMap_append, ← List.append_assoc]
      exact List.mem_append_left _ carried
    have inRight (member : binding ∈ second.flatMap Instr.sources ++ others) :
        binding ∈ inputs ++ (first ++ second).flatMap Instr.destinations ∨
          scope.Declares binding := by
      rcases right.reads binding member with carried | declared
      · rcases List.mem_append.mp carried with isInput | assigned
        · rcases List.mem_append.mp (fits isInput) with isOutput | isInput
          · exact inLeft (List.mem_append_right _ isOutput)
          · exact .inl (List.mem_append_left _ isInput)
        · rw [List.flatMap_append]
          exact .inl (List.mem_append_right _ (List.mem_append_right _ assigned))
      · exact .inr declared
    rw [List.flatMap_append, List.mem_append, List.mem_append, List.mem_append] at member
    rcases member with (inFirst | inSecond) | (isOutput | isOther)
    · exact inLeft (List.mem_append_left _ inFirst)
    · exact inRight (List.mem_append_left _ inSecond)
    · exact inLeft (List.mem_append_right _ isOutput)
    · exact inRight (List.mem_append_right _ isOther)

/-- An instruction that assigns to nothing. -/
theorem plain {instr : Instr} (quiet : instr.destinations = []) (reads : instr.sources ⊆ inputs) :
    scope.Carries inputs [instr] [] where
  writes := List.forall_mem_singleton.mpr (quiet ▸ nofun)
  reads binding member := by
    rw [List.flatMap_singleton, List.append_nil] at member
    exact .inl (List.mem_append_left _ (reads member))

/-- A value is computed from operands into a variable. -/
theorem store {name : String} {rhs : Instr} {ty : Ty}
    (carries : scope.Carries inputs code outputs) (accords : scope.Accords ⟨name, ty⟩)
    (quiet : rhs.destinations = []) (reads : rhs.sources ⊆ outputs ++ inputs) :
    scope.Carries inputs (code ++ [.assign name rhs ty]) [⟨name, ty⟩] := by
  have destination : (Instr.assign name rhs ty).destinations = [⟨name, ty⟩] := by
    rw [Instr.destinations, quiet]
  have last : scope.Carries (outputs ++ inputs) [.assign name rhs ty] [⟨name, ty⟩] := by
    refine ⟨List.forall_mem_singleton.mpr ?_, fun binding member => .inl ?_⟩
    · rw [destination]
      exact List.forall_mem_singleton.mpr ⟨⟨rhs, rfl⟩, accords⟩
    · rw [List.flatMap_singleton, destination]
      rcases List.mem_append.mp member with isRead | isOutput
      · rw [List.flatMap_singleton] at isRead
        exact List.mem_append_left _ (reads isRead)
      · exact List.mem_append_right _ isOutput
  exact (carries.append last (List.Subset.refl _)).leaving (List.subset_append_right _ _)

/-- An instruction uses operands. -/
theorem perform (carries : scope.Carries inputs code outputs) (instr : Instr)
    (quiet : instr.destinations = []) (reads : instr.sources ⊆ outputs ++ inputs) :
    scope.Carries inputs (code ++ [instr]) outputs :=
  (carries.append (.plain quiet reads) (List.Subset.refl _)).leaving (List.subset_append_left _ _)

/-- A branch with a jump behind it uses operands and leaves nothing. -/
theorem branch {condition : Condition} (carries : scope.Carries inputs code outputs)
    (reads : condition.operands.flatMap Operand.sources ⊆ outputs ++ inputs)
    (onTrue onFalse : Label) :
    scope.Carries inputs (code ++ [.branch condition onTrue, .goto onFalse]) [] := by
  rw [List.append_cons]
  exact ((carries.perform (.branch condition onTrue) rfl reads).perform (.goto onFalse) rfl
    (List.nil_subset _)).leaving (List.nil_subset _)

theorem goto (target : Label) : scope.Carries inputs [.goto target] [] :=
  .plain rfl (List.nil_subset _)

/-- Code behind a label. -/
theorem label (place : Label) (carries : scope.Carries inputs code outputs) :
    scope.Carries inputs (.label place :: code) outputs :=
  have mark : scope.Carries inputs [.label place] [] := .plain rfl (List.nil_subset _)
  mark.append carries (List.Subset.refl _)

/-- A jump behind code, if it can be left at its end. -/
theorem joined (carries : scope.Carries inputs code outputs) (target : Label) :
    scope.Carries inputs (Lower.joined target code) outputs := by
  rw [Lower.joined]
  split
  · exact carries
  · exact carries.perform (.goto target) rfl (List.nil_subset _)

/-- A jump that is turned into a word. Both assignments of the diamond are to a word. -/
theorem materialize {name : String} (number : Nat) (carries : scope.Carries inputs code outputs)
    (accords : scope.Accords ⟨name, .boolean⟩) :
    scope.Carries inputs (code ++ diamond number name) [⟨name, .boolean⟩] := by
  have constant (value : Bool) :
      scope.Carries inputs [.assign name (.value (.bool value)) .boolean] [⟨name, .boolean⟩] :=
    nil.store accords rfl (List.nil_subset _)
  have onTrue := (constant true).append (.label (.numbered "end_" number) .nil)
    (List.subset_append_right _ _)
  have onFalse := (constant false).append
    ((goto (.numbered "end_" number)).append (onTrue.label (.numbered "true_" number))
      (List.subset_append_right _ _)) (List.subset_append_right _ _)
  exact (carries.append (onFalse.label (.numbered "false_" number))
    (List.subset_append_right _ _)).leaving (by simp)

end Carries

end Scope

/-! ### What lowering names -/

/-- The variables that a phrase reads without computing them. -/
def Phrase.needs : Phrase → List Binding
  | .fill array _ _ _ => array.sources
  | _ => []

/-- The variables that hold what a phrase leaves. -/
def Phrase.yields : Phrase → List Binding
  | .value _ _ result | .pack _ _ result => result.sources
  | .values _ results => results.flatMap Operand.sources
  | .target _ _ _ result => result.operands.flatMap Operand.sources
  | .call _ _ _ _ result => result.operands.flatMap Operand.sources
  | _ => []

theorem sources_standing (call : Call) :
    (Scope.standing call).sources = call.operands.flatMap Operand.sources := by
  rw [Instr.sources, operands_standing]

theorem destinations_standing (call : Call) : (Scope.standing call).destinations = [] := by
  rw [Scope.standing]
  split <;> rfl

theorem Scope.destinations_rightHandSide (scope : Scope) (operand : Operand) :
    (scope.rightHandSide operand).destinations = [] := by
  cases operand <;> rfl

/-- Storing an operand reads what the operand names. -/
theorem Scope.sources_rightHandSide (scope : Scope) (operand : Operand) :
    (scope.rightHandSide operand).sources = operand.sources := by
  cases operand <;> rfl

theorem Lowers.carries {scope : Scope} {phrase : Phrase} {before after : Counters}
    {code : List Instr} (lowers : Lowers scope phrase before code after) :
    scope.Carries phrase.needs code phrase.yields := by
  induction lowers with
  | int | bool | field | this | noValues | filled | implicitStatic | implicitThis | onThis
  | onClass | noStmts => exact .nil
  | var resolved notField =>
    exact .ready (List.forall_mem_singleton.mpr ⟨_, resolved, notField, rfl⟩)
  | arith _ _ left right | index _ _ left right =>
    exact (left.append right (List.nil_subset _)).store (scope.accords_nextTemp _ _) rfl
      (by simp [Instr.sources, Instr.operands, Phrase.yields])
  | newObject =>
    refine (Scope.Carries.nil.store (scope.accords_nextTemp _ _) rfl (List.nil_subset _)).perform
      (.call _) rfl ?_
    simp [Instr.sources, Instr.operands, Call.operands, CallTarget.operands,
      Scope.constructorCall, Operand.sources]
  | newArray _ inner | length _ inner =>
    exact inner.store (scope.accords_nextTemp _ _) rfl
      (by simp [Instr.sources, Instr.operands, Phrase.yields])
  | callValue _ _ call =>
    exact call.store (scope.accords_nextTemp _ _) rfl (List.subset_append_left _ _)
  | arrayLiteral _ inner | paren _ inner | not _ inner | parenJump _ inner | block _ inner =>
    exact inner
  | onValue _ _ _ receiver =>
    exact receiver.leaving (by simp [Phrase.yields, CallTarget.operands])
  | materialize _ _ jump => exact jump.materialize _ (scope.accords_nextTemp _ _)
  | decided => exact .goto _
  | less _ _ left right =>
    exact (left.append right (List.nil_subset _)).branch
      (by simp [Condition.operands, Phrase.yields]) _ _
  | and _ _ left right | or _ _ left right =>
    exact left.append (right.label _) (List.nil_subset _)
  | nonZero _ _ value => exact value.branch (by simp [Condition.operands, Phrase.yields]) _ _
  | moreValues _ _ first rest | moreStmts _ _ first rest =>
    exact first.append rest (List.nil_subset _)
  | fillMore _ _ first rest =>
    rw [List.append_cons]
    refine (((first.mono (List.nil_subset _)).perform (.storeElement _ _ _) rfl ?_).append rest
      (List.subset_append_right _ _)).leaving (List.nil_subset _)
    simp [Instr.sources, Instr.operands, Phrase.yields, Phrase.needs, Operand.sources,
      Operand.int]
  | pack _ fill =>
    exact ((Scope.Carries.nil.store (scope.accords_nextTemp _ _) rfl
      (List.nil_subset _)).append fill (List.subset_append_left _ _)).leaving
      (List.subset_append_left _ _)
  | unbound _ _ _ target args | bound _ _ _ _ target args | passed _ _ _ _ _ _ target args =>
    exact (target.append args (List.nil_subset _)).leaving
      (by simp [Phrase.yields, Call.operands])
  | packed _ _ _ _ _ _ target args array =>
    exact (target.append (args.append array (List.nil_subset _)) (List.nil_subset _)).leaving
      (by simp [Phrase.yields, Call.operands])
  | ifThen _ _ jump thenBranch =>
    exact jump.append (((thenBranch.joined _).append (.label _ (.label _ .nil))
      (List.nil_subset _)).label _) (List.nil_subset _)
  | ifElse _ _ _ jump thenBranch elseBranch =>
    exact jump.append (((thenBranch.joined _).append ((elseBranch.append (.label _ .nil)
      (List.nil_subset _)).label _) (List.nil_subset _)).label _) (List.nil_subset _)
  | whileLoop _ _ jump body =>
    have ends (again done : Label) := body.append
      ((Scope.Carries.goto again).append (.label done .nil) (List.nil_subset _))
      (List.nil_subset _)
    exact (jump.append ((ends _ _).label _) (List.nil_subset _)).label _
  | evalCall _ _ call =>
    refine (call.perform (Scope.standing _) (destinations_standing _) ?_).leaving
      (List.nil_subset _)
    rw [sources_standing]
    exact List.subset_append_left _ _
  | eval _ _ value => exact value.leaving (List.nil_subset _)
  | assignField _ _ _ value =>
    refine (value.perform (.putField _ _ _ _) rfl ?_).leaving (List.nil_subset _)
    simp [Instr.sources, Instr.operands, Phrase.yields, Operand.sources]
  | assignVariable _ resolved notField _ value =>
    refine (value.store (.inr ⟨_, resolved, notField, rfl⟩)
      (scope.destinations_rightHandSide _) ?_).leaving (List.nil_subset _)
    rw [Scope.sources_rightHandSide]
    exact List.subset_append_left _ _
  | assignElement _ _ _ _ array position value =>
    rw [← List.append_assoc, ← List.append_assoc]
    refine (((array.append position (List.nil_subset _)).append value (List.nil_subset _)).perform
      (.storeElement _ _ _) rfl ?_).leaving (List.nil_subset _)
    grind [Instr.sources, Instr.operands, Phrase.yields]
  | returnNothing => exact .plain rfl (List.nil_subset _)
  | returnValue _ value =>
    refine (value.perform (.ret _ _) rfl ?_).leaving (List.nil_subset _)
    simp [Instr.sources, Instr.operands, Phrase.yields]

/-! ### One type for each name -/

theorem Scope.Carries.close {scope : Scope} {inputs outputs : List Binding} {code : List Instr}
    (carries : scope.Carries inputs code outputs) :
    scope.Carries inputs (scope.method.close code) outputs := by
  rcases scope.method.close_cases code with ⟨-, added⟩ | ⟨same, -⟩
  · rw [added]
    exact carries.perform (.ret none .void) rfl (List.nil_subset _)
  · rwa [same]

/-- What is computed in one place is assigned at one type. -/
theorem ComputedIn.exists_ty {name : String} {code : List Instr}
    (computes : ComputedIn name code) :
    ∃ ty, ∀ rhs other, .assign name rhs other ∈ code → other = ty := by
  have isWrite {rhs : Instr} {other : Ty} (member : .assign name rhs other ∈ code) :
      .assign name rhs other ∈ writesTo name code :=
    List.mem_filter.mpr ⟨member, by simp [Instr.written]⟩
  rcases computes with ⟨only, ty, writes⟩ | ⟨number, -, writes⟩
  · refine ⟨ty, fun rhs other member => ?_⟩
    have same := isWrite member
    rw [writes, List.mem_singleton] at same
    exact (Instr.assign.inj same).2.2
  · refine ⟨.boolean, fun rhs other member => ?_⟩
    have same := isWrite member
    rw [writes, List.mem_pair] at same
    exact same.elim (fun same => (Instr.assign.inj same).2.2) fun same =>
      (Instr.assign.inj same).2.2

/-- The first parameter of a name is found by its name. -/
theorem Signature.param?_of_find? {signature : Signature} {name : String} {param : Binding}
    (isParam : signature.params.find? (·.name == name) = some param) :
    ∃ position, signature.param? name = some (position, param) := by
  obtain ⟨named, position, bound, rfl, earlier⟩ := List.find?_eq_some_iff_getElem.mp isParam
  have isFirst : signature.params.findIdx? (·.name == name) = some position := by
    refine List.findIdx?_eq_some_iff_getElem.mpr ⟨bound, named, fun other before => ?_⟩
    simpa using earlier other before
  refine ⟨position, ?_⟩
  rw [param?, isFirst]
  simp [bound]

namespace Scope

theorem Declares.ty_eq {scope : Scope} {first second : Binding} (declares : scope.Declares first)
    (other : scope.Declares second) (same : first.name = second.name) :
    first.ty = second.ty := by
  obtain ⟨found, resolved, -, ty⟩ := declares
  obtain ⟨otherFound, otherResolved, -, otherTy⟩ := other
  rw [same, otherResolved] at resolved
  rw [← ty, ← otherTy, Option.some.inj resolved]

/-- What is named is declared, or it is assigned to and its name stands for nothing. -/
theorem Carries.origin {scope : Scope} {code : List Instr} (carries : scope.Carries [] code [])
    {binding : Binding} (mentioned : binding ∈ code.flatMap Instr.mentions) :
    scope.Declares binding ∨ scope.lookup? binding.name = none ∧
      ∃ rhs, .assign binding.name rhs binding.ty ∈ code := by
  have origins : binding ∈ code.flatMap Instr.destinations ∨ scope.Declares binding := by
    obtain ⟨instr, inCode, named⟩ := List.mem_flatMap.mp mentioned
    rw [Instr.mentions_eq] at named
    rcases List.mem_append.mp named with assigned | isRead
    · exact .inl (List.mem_flatMap.mpr ⟨instr, inCode, assigned⟩)
    · refine carries.reads binding (List.mem_append_left _ ?_)
      exact List.mem_flatMap.mpr ⟨instr, inCode, isRead⟩
  rcases origins with assigned | declares
  · obtain ⟨instr, inCode, assigned⟩ := List.mem_flatMap.mp assigned
    obtain ⟨⟨rhs, isAssign⟩, accords⟩ := carries.writes instr inCode binding assigned
    rcases accords with free | declares
    · exact .inr ⟨free, rhs, isAssign ▸ inCode⟩
    · exact .inl declares
  · exact .inl declares

/-- A temporary that code assigns to is assigned at one type. -/
theorem Introduces.exists_ty {scope : Scope} {start stop : Nat} {code : List Instr}
    (introduces : scope.Introduces start stop [] code []) {name : String}
    (free : scope.lookup? name = none) :
    ∃ ty, ∀ rhs other, .assign name rhs other ∈ code → other = ty := by
  by_cases assigned : ∃ rhs other, Instr.assign name rhs other ∈ code
  · obtain ⟨rhs, other, member⟩ := assigned
    rcases introduces.writes _ member name List.mem_cons_self with isDeclared | isTaken
    · exact absurd isDeclared (not_mem_declared_of_lookup? free)
    · exact (introduces.computes name isTaken).exists_ty
  · exact ⟨.unknown, fun rhs other member => absurd ⟨rhs, other, member⟩ assigned⟩

variable {scope : Scope} {body : List Stmt} {method : MethodCode}

theorem Compiles.carries (compiles : scope.Compiles body method) :
    scope.Carries [] method.body [] := by
  obtain ⟨before, code, after, lowers, rfl⟩ := compiles
  exact lowers.carries.close

theorem Compiles.introduces (compiles : scope.Compiles body method) :
    ∃ start stop, scope.Introduces start stop [] method.body [] := by
  obtain ⟨before, code, after, lowers, rfl⟩ := compiles
  exact ⟨_, _, lowers.introduces.close⟩

/-- In the code of a method, a name has one type. -/
theorem Compiles.ty_eq (compiles : scope.Compiles body method) {first second : Binding}
    (inFirst : first ∈ method.body.flatMap Instr.mentions)
    (inSecond : second ∈ method.body.flatMap Instr.mentions) (same : first.name = second.name) :
    first.ty = second.ty := by
  obtain ⟨start, stop, introduces⟩ := compiles.introduces
  -- A name that is declared is no temporary, so both have the same origin.
  rcases compiles.carries.origin inFirst with declares | ⟨free, rhs, assigned⟩ <;>
    rcases compiles.carries.origin inSecond with other | ⟨otherFree, otherRhs, otherAssigned⟩
  · exact declares.ty_eq other same
  · obtain ⟨found, resolved, -⟩ := declares
    rw [same, otherFree] at resolved
    cases resolved
  · obtain ⟨found, resolved, -⟩ := other
    rw [← same, free] at resolved
    cases resolved
  · obtain ⟨ty, only⟩ := introduces.exists_ty free
    rw [only rhs first.ty assigned, only otherRhs second.ty (same ▸ otherAssigned)]

/-! ### The types of registers -/

/-- A parameter is found before a local of the same name, and of several the first. -/
theorem ty_of_find?_params {name : String} {param : Binding} {found : Variable}
    (isParam : scope.method.params.find? (·.name == name) = some param)
    (resolved : scope.lookup? name = some found) (notField : found.isField = false) :
    found.ty = param.ty := by
  obtain ⟨position, isFirst⟩ := Signature.param?_of_find? isParam
  rw [lookup?, isFirst] at resolved
  cases isField : (if scope.method.isStatic then none else scope.table.field? name) with
  | none =>
    simp only [isField, Option.map_none] at resolved
    obtain rfl := Option.some.inj resolved
    rfl
  | some field =>
    simp only [isField] at resolved
    obtain rfl := Option.some.inj resolved
    cases notField

/-- What the code names by the name of a parameter has the type of the parameter. -/
theorem Carries.ty_of_find?_params {code : List Instr} (carries : scope.Carries [] code [])
    {binding param : Binding} (mentioned : binding ∈ code.flatMap Instr.mentions)
    (isParam : scope.method.params.find? (·.name == binding.name) = some param) :
    param.ty = binding.ty := by
  rcases carries.origin mentioned with ⟨found, resolved, notField, ty⟩ | ⟨free, -⟩
  · rw [← ty, Scope.ty_of_find?_params isParam resolved notField]
  · have named : binding.name ∈ scope.declared := by
      rw [declared, List.map_append, List.mem_append]
      refine .inl (List.mem_map.mpr ⟨param, List.mem_of_find?_eq_some isParam, ?_⟩)
      simpa using List.find?_some isParam
    exact absurd named (not_mem_declared_of_lookup? free)

/-- The code of a method never names the receiver as a variable, if no parameter and no local has
its name. -/
theorem Compiles.name_ne_this (compiles : scope.Compiles body method)
    (unshadowed : "this" ∉ scope.declared) {binding : Binding}
    (mentioned : binding ∈ method.body.flatMap Instr.mentions) : binding.name ≠ "this" := by
  intro isThis
  rcases compiles.carries.origin mentioned with ⟨found, resolved, notField, -⟩ | ⟨-, rhs, assigned⟩
  · exact unshadowed (isThis ▸ mem_declared_of_lookup? resolved notField)
  · obtain ⟨start, stop, introduces⟩ := compiles.introduces
    rw [isThis] at assigned
    rcases introduces.writes _ assigned "this" List.mem_cons_self with isDeclared | isTaken
    · exact unshadowed isDeclared
    · obtain ⟨number, -, -, same⟩ := introduces.reaches.freshTemps.within "this" isTaken
      exact tempName_ne_this number same.symm

theorem Compiles.registers_eq (compiles : scope.Compiles body method) :
    method.registers = .allocate scope.receiverType? scope.method.params method.body := by
  obtain ⟨before, code, after, -, rfl⟩ := compiles
  rfl

/-- Every variable that the code of a method names has a register of its type. -/
theorem Compiles.get?_of_mentioned (compiles : scope.Compiles body method)
    (unshadowed : scope.method.isStatic = false → "this" ∉ scope.declared) {binding : Binding}
    (mentioned : binding ∈ method.body.flatMap Instr.mentions) :
    ∃ register, method.registers.get? binding.name = some register ∧
      register.ty = binding.ty := by
  obtain ⟨instr, inBody, named⟩ := List.mem_flatMap.mp mentioned
  obtain ⟨register, found⟩ :=
    Registers.get?_of_mem_mentions scope.receiverType? scope.method.params inBody named
  rw [compiles.registers_eq]
  refine ⟨register, found, ?_⟩
  have lists := Registers.lists_empty.declareAll
    ((scope.receiverType?.toList.map fun ty => ⟨"this", ty⟩) ++ scope.method.params ++
      method.body.flatMap Instr.mentions)
  have first := lists.ty binding.name register ((lists.get? _ _).mp found)
  -- The name came up first as a parameter or in the code, for the receiver has another name.
  have notReceiver : (scope.receiverType?.toList.map fun ty => (⟨"this", ty⟩ : Binding)).find?
      (·.name == binding.name) = none := by
    cases isStatic : scope.method.isStatic with
    | true => simp [receiverType?, isStatic]
    | false =>
      have notThis := compiles.name_ne_this (unshadowed isStatic) mentioned
      simp [receiverType?, isStatic, notThis.symm]
  rw [List.nil_append, List.find?_append, List.find?_append, notReceiver, Option.none_or] at first
  cases isParam : scope.method.params.find? (·.name == binding.name) with
  | some param =>
    rw [isParam, Option.some_or] at first
    rw [← compiles.carries.ty_of_find?_params mentioned isParam, Option.some.inj first]
  | none =>
    rw [isParam, Option.none_or] at first
    exact compiles.ty_eq (List.mem_of_find?_eq_some first) mentioned rfl

end Scope

end JavaMinus
