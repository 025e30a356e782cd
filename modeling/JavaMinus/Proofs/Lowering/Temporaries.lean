/-
This file shows that temporaries do not get in the way of anything. For every
method that is lowered it keeps a record of the temporaries that were taken for
it. None of them has the name of a variable of the method, none is taken again
for another method, also of a later program and also if lowering failed in
between, and each is computed in one place: by one assignment, or by the two in
the diamond that turns a jump into a word. The variables of the method and these
temporaries are all that its code reads and writes.

The counter goes from one free number behind the next, so the names that are
taken between two counts are determined by the counts. What a piece of code adds
is told apart from what stands before it by the range of its numbers.
-/

import Mathlib.Data.List.Infix
import Mathlib.Logic.Relation
import JavaMinus.Proofs.Lowering.Labels

namespace JavaMinus

/-! ### The temporaries that are taken -/

namespace Scope

/-- The temporaries that are taken while the counter goes from a start to a stop, each the next
one that is free. -/
def taken (scope : Scope) (start stop : Nat) : List String :=
  if start < stop then
    tempName (scope.freeTemp start) :: scope.taken (scope.freeTemp start + 1) stop
  else []
termination_by stop - start
decreasing_by
  have later := scope.le_freeTemp start
  omega

/-- The counter comes from a start to a stop by taking temporaries. -/
def Reaches (scope : Scope) : Nat → Nat → Prop :=
  Relation.ReflTransGen fun start next => next = scope.freeTemp start + 1

variable {scope : Scope} {start middle stop : Nat}

theorem Reaches.le (reaches : scope.Reaches start stop) : start ≤ stop := by
  induction reaches with
  | refl => exact Nat.le_refl _
  | tail _ next inductionHypothesis =>
    rw [next]
    exact Nat.le_succ_of_le (Nat.le_trans inductionHypothesis (scope.le_freeTemp _))

theorem reaches_freeTemp (scope : Scope) (start : Nat) :
    scope.Reaches start (scope.freeTemp start + 1) :=
  .single rfl

@[simp] theorem taken_self (scope : Scope) (start : Nat) : scope.taken start start = [] := by
  rw [taken, if_neg (Nat.lt_irrefl start)]

theorem taken_of_lt (scope : Scope) (lt : start < stop) :
    scope.taken start stop =
      tempName (scope.freeTemp start) :: scope.taken (scope.freeTemp start + 1) stop := by
  rw [taken, if_pos lt]

/-- One temporary is taken from a counter up to the next. -/
theorem taken_freeTemp (scope : Scope) (start : Nat) :
    scope.taken start (scope.freeTemp start + 1) = [tempName (scope.freeTemp start)] := by
  rw [scope.taken_of_lt (Nat.lt_succ_of_le (scope.le_freeTemp start)), taken_self]

/-- What is taken up to a count that is reached comes before what is taken from there. -/
theorem taken_append (reaches : scope.Reaches start middle) (le : middle ≤ stop) :
    scope.taken start stop = scope.taken start middle ++ scope.taken middle stop := by
  induction reaches using Relation.ReflTransGen.head_induction_on with
  | refl => rw [taken_self, List.nil_append]
  | @head start next isNext rest inductionHypothesis =>
    have ahead : next ≤ middle := Reaches.le rest
    subst isNext
    have moved : start < middle := Nat.lt_of_le_of_lt (scope.le_freeTemp start) ahead
    rw [scope.taken_of_lt moved, scope.taken_of_lt (Nat.lt_of_lt_of_le moved le),
      inductionHypothesis, List.cons_append]

/-- No temporary has the name of a variable. -/
theorem lookup?_of_mem_taken {name : String} (member : name ∈ scope.taken start stop) :
    scope.lookup? name = none := by
  fun_induction taken scope start stop with
  | case1 start lt inductionHypothesis =>
    rcases List.mem_cons.mp member with rfl | inRest
    · exact scope.lookup?_freeTemp start
    · exact inductionHypothesis inRest
  | case2 => cases member

end Scope

/-- Different temporaries with numbers from a range. -/
structure FreshTemps (lower upper : Nat) (names : List String) : Prop where
  nodup : names.Nodup
  within : ∀ name ∈ names, ∃ number, lower ≤ number ∧ number < upper ∧ name = tempName number

namespace FreshTemps

variable {lower middle upper : Nat} {first second : List String}

theorem nil (lower upper : Nat) : FreshTemps lower upper [] :=
  ⟨List.nodup_nil, fun _ member => nomatch member⟩

/-- Temporaries from two ranges have different names. -/
theorem disjoint (start : FreshTemps lower middle first) (rest : FreshTemps middle upper second)
    {name : String} (inFirst : name ∈ first) : name ∉ second := by
  intro inSecond
  obtain ⟨number, -, below, rfl⟩ := start.within name inFirst
  obtain ⟨other, above, -, same⟩ := rest.within _ inSecond
  have equal := tempName_injective same
  omega

/-- Temporaries from two ranges side by side. -/
theorem append (start : FreshTemps lower middle first) (rest : FreshTemps middle upper second)
    (below : lower ≤ middle) (above : middle ≤ upper) :
    FreshTemps lower upper (first ++ second) := by
  constructor
  · rw [List.nodup_append]
    refine ⟨start.nodup, rest.nodup, fun one inFirst other inSecond => ?_⟩
    rintro rfl
    exact start.disjoint rest inFirst inSecond
  · intro name member
    rcases List.mem_append.mp member with inFirst | inSecond
    · obtain ⟨number, atLeast, less, rfl⟩ := start.within name inFirst
      exact ⟨number, atLeast, Nat.lt_of_lt_of_le less above, rfl⟩
    · obtain ⟨number, atLeast, less, rfl⟩ := rest.within name inSecond
      exact ⟨number, Nat.le_trans below atLeast, less, rfl⟩

end FreshTemps

theorem Scope.Reaches.freshTemps {scope : Scope} {start stop : Nat}
    (reaches : scope.Reaches start stop) : FreshTemps start stop (scope.taken start stop) := by
  induction reaches with
  | refl =>
    rw [taken_self]
    exact .nil _ _
  | @tail middle next reached isNext inductionHypothesis =>
    subst isNext
    have later := scope.le_freeTemp middle
    rw [taken_append reached (Nat.le_succ_of_le later), taken_freeTemp]
    refine inductionHypothesis.append ⟨List.nodup_singleton _, ?_⟩ (Reaches.le reached)
      (Nat.le_succ_of_le later)
    exact List.forall_mem_singleton.mpr ⟨_, later, Nat.lt_succ_self _, rfl⟩

/-! ### Where a variable is computed -/

/-- The names of the variables that an operand reads. -/
def Operand.reads : Operand → List String
  | .var name _ => [name]
  | _ => []

/-- The names of the variables that an instruction reads. What it assigns to is not among them. -/
def Instr.reads (instr : Instr) : List String := instr.operands.flatMap Operand.reads

/-- The instructions that write a variable. -/
def writesTo (name : String) (code : List Instr) : List Instr :=
  code.filter fun instr => name ∈ instr.written

theorem writesTo_append (name : String) (first second : List Instr) :
    writesTo name (first ++ second) = writesTo name first ++ writesTo name second :=
  List.filter_append ..

theorem writesTo_eq_nil {name : String} {code : List Instr}
    (never : ∀ instr ∈ code, name ∉ instr.written) : writesTo name code = [] :=
  List.filter_eq_nil_iff.mpr fun instr member => by simpa using never instr member

/-- The two assignments of a diamond are all that writes its variable. -/
theorem writesTo_diamond (number : Nat) (name : String) :
    writesTo name (Scope.diamond number name) =
      [.assign name (.value (.bool false)) .boolean,
        .assign name (.value (.bool true)) .boolean] := by
  simp [writesTo, Scope.diamond, Instr.written]

/-- The code computes a variable in one place: by one assignment, or by the two of a diamond, of
which one stores `0` and one stores `1`. -/
def ComputedIn (name : String) (code : List Instr) : Prop :=
  (∃ rhs ty, writesTo name code = [.assign name rhs ty]) ∨
    ∃ number, Scope.diamond number name <:+: code ∧
      writesTo name code =
        [.assign name (.value (.bool false)) .boolean, .assign name (.value (.bool true)) .boolean]

/-- Code around it that does not write the variable changes nothing. -/
theorem ComputedIn.within {name : String} {code whole : List Instr}
    (computes : ComputedIn name code) (inside : code <:+: whole)
    (same : writesTo name whole = writesTo name code) : ComputedIn name whole := by
  rw [ComputedIn, same]
  exact computes.imp id fun ⟨number, diamond, writes⟩ => ⟨number, diamond.trans inside, writes⟩

theorem ComputedIn.followed {name : String} {first second : List Instr}
    (computes : ComputedIn name first) (never : ∀ instr ∈ second, name ∉ instr.written) :
    ComputedIn name (first ++ second) :=
  computes.within (List.prefix_append first second).isInfix
    (by rw [writesTo_append, writesTo_eq_nil never, List.append_nil])

theorem ComputedIn.behind {name : String} {first second : List Instr}
    (computes : ComputedIn name second) (never : ∀ instr ∈ first, name ∉ instr.written) :
    ComputedIn name (first ++ second) :=
  computes.within (List.suffix_append first second).isInfix
    (by rw [writesTo_append, writesTo_eq_nil never, List.nil_append])

/-! ### What a piece of code brings in -/

namespace Scope

/-- The names of the parameters and locals of the method. -/
def declared (scope : Scope) : List String :=
  (scope.method.params ++ scope.method.locals).map Binding.name

/-- The name is that of a parameter, of a local, or of a temporary that is taken between two
counts. -/
def Provides (scope : Scope) (start stop : Nat) (name : String) : Prop :=
  name ∈ scope.declared ∨ name ∈ scope.taken start stop

/-- A name that stands for no variable is not declared. -/
theorem not_mem_declared_of_lookup? {scope : Scope} {name : String}
    (free : scope.lookup? name = none) : name ∉ scope.declared := by
  intro isDeclared
  have inNames : name ∈ scope.names := by
    rw [names, List.append_assoc, List.map_append]
    exact List.mem_append_right _ isDeclared
  rw [← lookup?_isSome_iff, free] at inNames
  cases inNames

/-- No temporary is declared. -/
theorem not_mem_declared_of_mem_taken {scope : Scope} {start stop : Nat} {name : String}
    (member : name ∈ scope.taken start stop) : name ∉ scope.declared :=
  not_mem_declared_of_lookup? (lookup?_of_mem_taken member)

/-- The code takes its temporaries from between two counts and computes each of them in one place.
It writes nothing else but declared variables, reads nothing else but these and its inputs, and
leaves outputs of that kind. -/
structure Introduces (scope : Scope) (start stop : Nat) (inputs : List String) (code : List Instr)
    (outputs : List String) : Prop where
  reaches : scope.Reaches start stop
  writes : ∀ instr ∈ code, ∀ name ∈ instr.written, scope.Provides start stop name
  reads : ∀ instr ∈ code, ∀ name ∈ instr.reads, name ∈ inputs ∨ scope.Provides start stop name
  computes : ∀ name ∈ scope.taken start stop, ComputedIn name code
  leaves : ∀ name ∈ outputs, scope.Provides start stop name

namespace Introduces

variable {scope : Scope} {start middle stop : Nat} {inputs outputs others : List String}
  {code first second : List Instr}

/-- No code, and an operand that needs none. -/
theorem ready (declared : ∀ name ∈ outputs, name ∈ scope.declared) :
    scope.Introduces start start inputs [] outputs where
  reaches := .refl
  writes := nofun
  reads := nofun
  computes name member := by
    rw [taken_self] at member
    cases member
  leaves name member := .inl (declared name member)

theorem nil : scope.Introduces start start inputs [] [] := .ready nofun

theorem leaving (introduces : scope.Introduces start stop inputs code outputs)
    (subset : others ⊆ outputs) : scope.Introduces start stop inputs code others :=
  { introduces with leaves := fun name member => introduces.leaves name (subset member) }

theorem mono (introduces : scope.Introduces start stop inputs code outputs)
    {larger : List String} (subset : inputs ⊆ larger) :
    scope.Introduces start stop larger code outputs :=
  { introduces with
    reads := fun instr member name isRead =>
      (introduces.reads instr member name isRead).imp (fun isInput => subset isInput) id }

/-- An instruction that writes declared variables at most and reads what is there. -/
theorem plain {instr : Instr} (writes : ∀ name ∈ instr.written, name ∈ scope.declared)
    (reads : instr.reads ⊆ inputs) : scope.Introduces start start inputs [instr] [] where
  reaches := .refl
  writes := List.forall_mem_singleton.mpr fun name member => .inl (writes name member)
  reads := List.forall_mem_singleton.mpr fun _ member => .inl (reads member)
  computes name member := by
    rw [taken_self] at member
    cases member
  leaves := nofun

/-- An assignment to the next temporary. -/
theorem assign {rhs : Instr} {ty : Ty} {counters : Counters} (reads : rhs.reads ⊆ inputs) :
    scope.Introduces counters.temps (scope.afterTemp counters).temps inputs
      [.assign (scope.nextTemp counters) rhs ty] [scope.nextTemp counters] := by
  have same : scope.taken counters.temps (scope.afterTemp counters).temps =
      [scope.nextTemp counters] := scope.taken_freeTemp counters.temps
  have provided : ∀ name ∈ [scope.nextTemp counters],
      scope.Provides counters.temps (scope.afterTemp counters).temps name :=
    fun name member => .inr (same ▸ member)
  refine ⟨scope.reaches_freeTemp counters.temps, List.forall_mem_singleton.mpr provided,
    List.forall_mem_singleton.mpr fun _ member => .inl (reads member), ?_, provided⟩
  rw [same]
  refine List.forall_mem_singleton.mpr (.inl ⟨rhs, ty, ?_⟩)
  simp [writesTo, Instr.written]

/-- Code one after the other. The second piece may read what the first one leaves. -/
theorem append (left : scope.Introduces start middle inputs first outputs)
    {between : List String} (right : scope.Introduces middle stop between second others)
    (fits : between ⊆ outputs ++ inputs) :
    scope.Introduces start stop inputs (first ++ second) (outputs ++ others) := by
  have all := taken_append left.reaches right.reaches.le
  have leftProvided {name : String} (provided : scope.Provides start middle name) :
      scope.Provides start stop name :=
    provided.imp id fun member => all ▸ List.mem_append_left _ member
  have rightProvided {name : String} (provided : scope.Provides middle stop name) :
      scope.Provides start stop name :=
    provided.imp id fun member => all ▸ List.mem_append_right _ member
  have apart {name : String} : name ∈ scope.taken start middle → name ∉ scope.taken middle stop :=
    left.reaches.freshTemps.disjoint right.reaches.freshTemps
  refine ⟨left.reaches.trans right.reaches, ?_, ?_, ?_, ?_⟩
  · exact List.forall_mem_append.mpr
      ⟨fun instr member name written => leftProvided (left.writes instr member name written),
        fun instr member name written => rightProvided (right.writes instr member name written)⟩
  · refine List.forall_mem_append.mpr
      ⟨fun instr member name isRead => (left.reads instr member name isRead).imp id leftProvided,
        fun instr member name isRead => ?_⟩
    rcases right.reads instr member name isRead with isInput | provided
    · rcases List.mem_append.mp (fits isInput) with isOutput | isInput
      · exact .inr (leftProvided (left.leaves name isOutput))
      · exact .inl isInput
    · exact .inr (rightProvided provided)
  · rw [all]
    -- Each piece writes none of the temporaries of the other.
    refine List.forall_mem_append.mpr ⟨fun name member => ?_, fun name member => ?_⟩
    · refine (left.computes name member).followed fun instr inSecond written => ?_
      rcases right.writes instr inSecond name written with isDeclared | isTaken
      · exact not_mem_declared_of_mem_taken member isDeclared
      · exact apart member isTaken
    · refine (right.computes name member).behind fun instr inFirst written => ?_
      rcases left.writes instr inFirst name written with isDeclared | isTaken
      · exact not_mem_declared_of_mem_taken member isDeclared
      · exact apart isTaken member
  · exact List.forall_mem_append.mpr
      ⟨fun name member => leftProvided (left.leaves name member),
        fun name member => rightProvided (right.leaves name member)⟩

/-- A value is computed from operands into the next temporary. -/
theorem compute {counters : Counters} {rhs : Instr} {ty : Ty}
    (introduces : scope.Introduces start counters.temps inputs code outputs)
    (reads : rhs.reads ⊆ outputs ++ inputs) :
    scope.Introduces start (scope.afterTemp counters).temps inputs
      (code ++ [.assign (scope.nextTemp counters) rhs ty]) [scope.nextTemp counters] :=
  (introduces.append (.assign reads) (List.Subset.refl _)).leaving (List.subset_append_right _ _)

/-- An instruction uses operands and takes no temporary. -/
theorem perform (introduces : scope.Introduces start stop inputs code outputs) (instr : Instr)
    (writes : ∀ name ∈ instr.written, name ∈ scope.declared)
    (reads : instr.reads ⊆ outputs ++ inputs) :
    scope.Introduces start stop inputs (code ++ [instr]) outputs :=
  (introduces.append (.plain writes reads) (List.Subset.refl _)).leaving
    (List.subset_append_left _ _)

/-- A branch with a jump behind it uses operands and leaves nothing. -/
theorem branch {condition : Condition}
    (introduces : scope.Introduces start stop inputs code outputs)
    (reads : condition.operands.flatMap Operand.reads ⊆ outputs ++ inputs)
    (onTrue onFalse : Label) :
    scope.Introduces start stop inputs (code ++ [.branch condition onTrue, .goto onFalse]) [] := by
  rw [List.append_cons]
  refine ((introduces.perform (.branch condition onTrue) (List.forall_mem_nil _) reads).perform
    (.goto onFalse) (List.forall_mem_nil _) (List.nil_subset _)).leaving (List.nil_subset _)

theorem goto (target : Label) : scope.Introduces start start inputs [.goto target] [] :=
  .plain (List.forall_mem_nil _) (List.nil_subset _)

/-- Code behind a label. -/
theorem label (place : Label) (introduces : scope.Introduces start stop inputs code outputs) :
    scope.Introduces start stop inputs (.label place :: code) outputs :=
  have mark : scope.Introduces start start inputs [.label place] [] :=
    .plain (List.forall_mem_nil _) (List.nil_subset _)
  mark.append introduces (List.Subset.refl _)

/-- A jump that is turned into a word. The temporary for the word is taken before the code of the
jump takes its own, and written only behind it. -/
theorem materialize {counters : Counters} (number : Nat)
    (introduces : scope.Introduces (scope.afterTemp counters).temps stop inputs code outputs) :
    scope.Introduces counters.temps stop inputs
      (code ++ diamond number (scope.nextTemp counters)) [scope.nextTemp counters] := by
  have taken : scope.Reaches counters.temps (scope.afterTemp counters).temps :=
    scope.reaches_freeTemp counters.temps
  have all : scope.taken counters.temps stop =
      scope.nextTemp counters :: scope.taken (scope.afterTemp counters).temps stop := by
    rw [taken_append taken introduces.reaches.le, afterTemp, taken_freeTemp]
    rfl
  have provided {name : String}
      (provided : scope.Provides (scope.afterTemp counters).temps stop name) :
      scope.Provides counters.temps stop name :=
    provided.imp id fun member => all ▸ List.mem_cons_of_mem _ member
  have word : scope.Provides counters.temps stop (scope.nextTemp counters) :=
    .inr (all ▸ List.mem_cons_self)
  have fresh : scope.nextTemp counters ∉ scope.taken (scope.afterTemp counters).temps stop := by
    have nodup := (Reaches.freshTemps (taken.trans introduces.reaches)).nodup
    rw [all] at nodup
    exact (List.nodup_cons.mp nodup).1
  have onlyWord : ∀ instr ∈ diamond number (scope.nextTemp counters), ∀ name ∈ instr.written,
      name = scope.nextTemp counters := by
    simp [diamond, Instr.written]
  have readsNothing : ∀ instr ∈ diamond number (scope.nextTemp counters), instr.reads = [] := by
    simp [diamond, Instr.reads, Instr.operands, Operand.reads, Operand.bool]
  refine ⟨taken.trans introduces.reaches, ?_, ?_, ?_, List.forall_mem_singleton.mpr word⟩
  · refine List.forall_mem_append.mpr
      ⟨fun instr member name written => provided (introduces.writes instr member name written),
        fun instr member name written => ?_⟩
    rw [onlyWord instr member name written]
    exact word
  · refine List.forall_mem_append.mpr
      ⟨fun instr member name isRead => (introduces.reads instr member name isRead).imp id provided,
        fun instr member name isRead => ?_⟩
    rw [readsNothing instr member] at isRead
    cases isRead
  · rw [all]
    refine List.forall_mem_cons.mpr ⟨?_, fun name member => ?_⟩
    · refine ComputedIn.behind
        (.inr ⟨number, List.infix_refl _, writesTo_diamond number _⟩) fun instr inCode written => ?_
      rcases introduces.writes instr inCode _ written with isDeclared | isTaken
      · exact not_mem_declared_of_mem_taken (all ▸ List.mem_cons_self) isDeclared
      · exact fresh isTaken
    · refine (introduces.computes name member).followed fun instr inDiamond written => ?_
      rw [onlyWord instr inDiamond name written] at member
      exact fresh member

/-- A jump behind code, if it can be left at its end. -/
theorem joined (introduces : scope.Introduces start stop inputs code outputs) (target : Label) :
    scope.Introduces start stop inputs (Lower.joined target code) outputs := by
  rw [Lower.joined]
  split
  · exact introduces
  · exact introduces.perform (.goto target) (List.forall_mem_nil _) (List.nil_subset _)

end Introduces

end Scope

/-! ### What lowering brings in -/

theorem reads_standing (call : Call) :
    (Scope.standing call).reads = call.operands.flatMap Operand.reads := by
  rw [Instr.reads, operands_standing]

theorem written_standing (call : Call) : (Scope.standing call).written = [] := by
  rw [Scope.standing]
  split <;> rfl

/-- Storing an operand reads what the operand reads. -/
theorem Scope.reads_rightHandSide (scope : Scope) (operand : Operand) :
    (scope.rightHandSide operand).reads ⊆ operand.reads := by
  cases operand <;> simp [rightHandSide, Instr.reads, Instr.operands, Operand.reads]

/-- The variables that a phrase reads without computing them. -/
def Phrase.inputs : Phrase → List String
  | .fill array _ _ _ => array.reads
  | _ => []

/-- The variables that hold what a phrase leaves. -/
def Phrase.outputs : Phrase → List String
  | .value _ _ result | .pack _ _ result => result.reads
  | .values _ results => results.flatMap Operand.reads
  | .target _ _ _ result => result.operands.flatMap Operand.reads
  | .call _ _ _ _ result => result.operands.flatMap Operand.reads
  | _ => []

theorem Lowers.introduces {scope : Scope} {phrase : Phrase} {before after : Counters}
    {code : List Instr} (lowers : Lowers scope phrase before code after) :
    scope.Introduces before.temps after.temps phrase.inputs code phrase.outputs := by
  induction lowers with
  | int | bool | field | this | noValues | filled | implicitStatic | implicitThis | onThis
  | onClass | noStmts => exact .nil
  | var resolved notField =>
    exact .ready (List.forall_mem_singleton.mpr (Scope.mem_declared_of_lookup? resolved notField))
  | arith _ _ left right | index _ _ left right =>
    exact (left.append right (List.nil_subset _)).compute
      (by simp [Instr.reads, Instr.operands, Phrase.outputs])
  | newObject =>
    refine (Scope.Introduces.nil.compute (List.nil_subset _)).perform (.call _)
      (List.forall_mem_nil _) ?_
    simp [Instr.reads, Instr.operands, Call.operands, CallTarget.operands, Scope.constructorCall,
      Operand.reads]
  | newArray _ inner | length _ inner =>
    exact inner.compute (by simp [Instr.reads, Instr.operands, Phrase.outputs])
  | callValue _ _ call => exact call.compute (List.subset_append_left _ _)
  | arrayLiteral _ inner | paren _ inner | not _ inner | parenJump _ inner | block _ inner =>
    exact inner
  | onValue _ _ _ receiver =>
    exact receiver.leaving (by simp [Phrase.outputs, CallTarget.operands])
  | materialize _ _ jump => exact jump.materialize _
  | decided => exact .plain (List.forall_mem_nil _) (List.nil_subset _)
  | less _ _ left right =>
    exact (left.append right (List.nil_subset _)).branch
      (by simp [Condition.operands, Phrase.outputs]) _ _
  | and _ _ left right | or _ _ left right =>
    exact left.append (right.label _) (List.nil_subset _)
  | nonZero _ _ value => exact value.branch (by simp [Condition.operands, Phrase.outputs]) _ _
  | moreValues _ _ first rest | moreStmts _ _ first rest =>
    exact first.append rest (List.nil_subset _)
  | fillMore _ _ first rest =>
    rw [List.append_cons]
    refine (((first.mono (List.nil_subset _)).perform (.storeElement _ _ _)
      (List.forall_mem_nil _) ?_).append rest (List.subset_append_right _ _)).leaving
      (List.nil_subset _)
    simp [Instr.reads, Instr.operands, Phrase.outputs, Phrase.inputs, Operand.reads, Operand.int]
  | pack _ fill =>
    exact ((Scope.Introduces.nil.compute (List.nil_subset _)).append fill
      (List.subset_append_left _ _)).leaving (List.subset_append_left _ _)
  | unbound _ _ _ target args | bound _ _ _ _ target args | passed _ _ _ _ _ _ target args =>
    exact (target.append args (List.nil_subset _)).leaving
      (by simp [Phrase.outputs, Call.operands])
  | packed _ _ _ _ _ _ target args array =>
    exact (target.append (args.append array (List.nil_subset _)) (List.nil_subset _)).leaving
      (by simp [Phrase.outputs, Call.operands])
  | ifThen _ _ jump thenBranch =>
    exact jump.append (((thenBranch.joined _).append (.label _ (.label _ .nil))
      (List.nil_subset _)).label _) (List.nil_subset _)
  | ifElse _ _ _ jump thenBranch elseBranch =>
    exact jump.append (((thenBranch.joined _).append ((elseBranch.append (.label _ .nil)
      (List.nil_subset _)).label _) (List.nil_subset _)).label _) (List.nil_subset _)
  | whileLoop _ _ jump body =>
    have ends (again done : Label) := body.append
      ((Scope.Introduces.goto again).append (.label done .nil) (List.nil_subset _))
      (List.nil_subset _)
    exact (jump.append ((ends _ _).label _) (List.nil_subset _)).label _
  | evalCall _ _ call =>
    refine (call.perform (Scope.standing _) ?_ ?_).leaving (List.nil_subset _)
    · rw [written_standing]
      exact List.forall_mem_nil _
    · rw [reads_standing]
      exact List.subset_append_left _ _
  | eval _ _ value => exact value.leaving (List.nil_subset _)
  | assignField _ _ _ value =>
    refine (value.perform (.putField _ _ _ _) (List.forall_mem_nil _) ?_).leaving (List.nil_subset _)
    simp [Instr.reads, Instr.operands, Phrase.outputs, Operand.reads]
  | assignVariable _ resolved notField _ value =>
    refine (value.perform (.assign _ _ _) ?_ ?_).leaving (List.nil_subset _)
    · exact List.forall_mem_singleton.mpr (Scope.mem_declared_of_lookup? resolved notField)
    · exact List.Subset.trans (scope.reads_rightHandSide _) (List.subset_append_left _ _)
  | assignElement _ _ _ _ array position value =>
    rw [← List.append_assoc, ← List.append_assoc]
    refine (((array.append position (List.nil_subset _)).append value (List.nil_subset _)).perform
      (.storeElement _ _ _) (List.forall_mem_nil _) ?_).leaving (List.nil_subset _)
    grind [Instr.reads, Instr.operands, Phrase.outputs]
  | returnNothing => exact .plain (List.forall_mem_nil _) (List.nil_subset _)
  | returnValue _ value =>
    refine (value.perform (.ret _ _) (List.forall_mem_nil _) ?_).leaving (List.nil_subset _)
    simp [Instr.reads, Instr.operands, Phrase.outputs]

/-- What a body brings in, its method brings in, also with the return that is added to it. -/
theorem Scope.Introduces.close {scope : Scope} {start stop : Nat} {inputs outputs : List String}
    {code : List Instr} (introduces : scope.Introduces start stop inputs code outputs) :
    scope.Introduces start stop inputs (scope.method.close code) outputs := by
  rcases scope.method.close_cases code with ⟨-, added⟩ | ⟨same, -⟩
  · rw [added]
    exact introduces.perform (.ret none .void) (List.forall_mem_nil _) (List.nil_subset _)
  · rwa [same]

/-! ### Records -/

/-- A method that was lowered: the scope it was lowered in, its code, and the temporaries that were
taken for it. -/
structure Record where
  scope : Scope
  method : MethodCode
  temps : List String

/-- The records of methods that are lowered in order, up to the first fault. -/
def Scope.records : List (MethodDecl × Scope) → Counters → List Record
  | [], _ => []
  | (decl, scope) :: rest, counters =>
    let first := scope.lowerMethod decl.body counters
    match first.1 with
    | .error _ => []
    | .ok method =>
      ⟨scope, method, scope.taken counters.temps first.2.temps⟩ :: records rest first.2

namespace ClassTable

/-- The records of a program. A program that cannot be lowered leaves none. -/
def records (table : ClassTable) (program : Program) (counters : Counters) : List Record :=
  match table.scopes program, (table.lower program counters).1 with
  | .ok decls, .ok _ => Scope.records decls counters
  | _, _ => []

/-- The records of programs that are lowered one after the other, each from where the counters were
left. -/
def history (table : ClassTable) : List Program → Counters → List Record
  | [], _ => []
  | program :: rest, counters =>
    table.records program counters ++ table.history rest (table.lower program counters).2

end ClassTable

/-- The record tells how a body was lowered: what its code brings in are its temporaries. -/
structure Record.Sound (record : Record) : Prop where
  compiles : ∃ body, record.scope.Compiles body record.method
  introduces : ∃ start stop, record.temps = record.scope.taken start stop ∧
    record.scope.Introduces start stop [] record.method.body []

/-- Records of methods that were lowered one after the other between two counts. -/
structure Recorded (records : List Record) (start stop : Nat) : Prop where
  fresh : FreshTemps start stop (records.flatMap Record.temps)
  sound : ∀ record ∈ records, record.Sound

namespace Recorded

variable {start middle stop : Nat} {first second : List Record}

theorem nil (start stop : Nat) : Recorded [] start stop := ⟨.nil _ _, List.forall_mem_nil _⟩

theorem append (left : Recorded first start middle) (right : Recorded second middle stop)
    (below : start ≤ middle) (above : middle ≤ stop) : Recorded (first ++ second) start stop where
  fresh := by
    rw [List.flatMap_append]
    exact left.fresh.append right.fresh below above
  sound := List.forall_mem_append.mpr ⟨left.sound, right.sound⟩

end Recorded

namespace Scope

/-- A method that is lowered is recorded with what its code brings in. -/
theorem recorded_lowerMethod {scope : Scope} {body : List Stmt} {counters : Counters}
    {method : MethodCode} (lowered : (scope.lowerMethod body counters).1 = .ok method) :
    Recorded
      [⟨scope, method, scope.taken counters.temps (scope.lowerMethod body counters).2.temps⟩]
      counters.temps (scope.lowerMethod body counters).2.temps := by
  have introduces : scope.Introduces counters.temps (scope.lowerMethod body counters).2.temps []
      method.body [] := by
    rw [lowerMethod] at lowered ⊢
    cases outcome : (scope.lowerBody body counters).outcome with
    | error fault =>
      rw [outcome] at lowered
      cases lowered
    | ok result =>
      rw [outcome] at lowered
      obtain rfl := Except.ok.inj lowered
      exact (lowers_body (Lower.gives_of_ok outcome)).introduces.close
  constructor
  · rw [List.flatMap_singleton]
    exact Reaches.freshTemps introduces.reaches
  · exact List.forall_mem_singleton.mpr
      ⟨⟨body, compiles_of_lowerMethod lowered⟩, _, _, rfl, introduces⟩

theorem recorded_lowerMethods (decls : List (MethodDecl × Scope)) (counters : Counters) :
    Recorded (records decls counters) counters.temps (lowerMethods decls counters).2.temps := by
  induction decls generalizing counters with
  | nil => exact .nil _ _
  | cons decl rest inductionHypothesis =>
    rw [records, lowerMethods]
    cases lowered : (decl.2.lowerMethod decl.1.body counters).1 with
    | error fault => exact .nil _ _
    | ok method =>
      exact (recorded_lowerMethod lowered).append (inductionHypothesis _)
        (decl.2.grows_lowerMethod decl.1.body counters).temps (grows_lowerMethods rest _).temps

/-- If all methods can be lowered, the records are of all of them. -/
theorem map_method_records {decls : List (MethodDecl × Scope)} {counters : Counters}
    {methods : List MethodCode} (lowered : (lowerMethods decls counters).1 = .ok methods) :
    (records decls counters).map Record.method = methods := by
  induction decls generalizing counters methods with
  | nil => exact Except.ok.inj lowered
  | cons decl rest inductionHypothesis =>
    rw [lowerMethods] at lowered
    rw [records]
    cases first : (decl.2.lowerMethod decl.1.body counters).1 with
    | error fault =>
      simp only [first] at lowered
      cases lowered
    | ok method =>
      simp only [first] at lowered ⊢
      cases others : (lowerMethods rest (decl.2.lowerMethod decl.1.body counters).2).1 with
      | error fault =>
        rw [others] at lowered
        cases lowered
      | ok restMethods =>
        rw [others] at lowered
        obtain rfl := Except.ok.inj lowered
        rw [List.map_cons, inductionHypothesis others]

end Scope

namespace ClassTable

theorem recorded_lower (table : ClassTable) (program : Program) (counters : Counters) :
    Recorded (table.records program counters) counters.temps
      (table.lower program counters).2.temps := by
  rw [records, lower]
  cases table.scopes program with
  | error fault => exact .nil _ _
  | ok decls =>
    simp only
    cases (Scope.lowerMethods decls counters).1 with
    | error fault => exact .nil _ _
    | ok methods => exact Scope.recorded_lowerMethods decls counters

theorem map_method_records (table : ClassTable) (program : Program) (counters : Counters) :
    (table.records program counters).map Record.method =
      (table.lower program counters).1.toOption.toList.flatMap ClassCode.methods := by
  rw [records, lower]
  cases table.scopes program with
  | error fault => rfl
  | ok decls =>
    simp only
    cases lowered : (Scope.lowerMethods decls counters).1 with
    | error fault => rfl
    | ok methods =>
      refine (Scope.map_method_records lowered).trans ?_
      simp [Except.map, Except.toOption, classCode]

/-- The history of some programs records what is taken while the counter goes through them. -/
theorem recorded_history (table : ClassTable) (programs : List Program) (counters : Counters) :
    Recorded (table.history programs counters) counters.temps
      (table.lowerAll programs counters).2.temps := by
  induction programs generalizing counters with
  | nil => exact .nil _ _
  | cons program rest inductionHypothesis =>
    exact (table.recorded_lower program counters).append (inductionHypothesis _)
      (table.grows_lower program counters).temps (table.grows_lowerAll rest _).temps

/-- The history has a record of every method in the code of the programs that could be lowered. -/
theorem map_method_history (table : ClassTable) (programs : List Program) (counters : Counters) :
    (table.history programs counters).map Record.method =
      (table.codes programs counters).flatMap ClassCode.methods := by
  induction programs generalizing counters with
  | nil => rfl
  | cons program rest inductionHypothesis =>
    rw [history, codes_cons, List.map_append, List.flatMap_append, map_method_records,
      inductionHypothesis]

/-- In all that is lowered with the same counters, failures included, no temporary is taken twice,
neither in one method nor in two. The code of a method reads and writes its parameters, its locals
and its temporaries only. A temporary has the name of no variable of its method, fields among them
unless the method is static, and is computed in one place of its code. -/
theorem temps_of_history (table : ClassTable) (programs : List Program) (counters : Counters) :
    (table.history programs counters).map Record.method =
        (table.codes programs counters).flatMap ClassCode.methods ∧
      ((table.history programs counters).flatMap Record.temps).Nodup ∧
      ∀ record ∈ table.history programs counters,
        (∀ instr ∈ record.method.body, ∀ name ∈ instr.written ++ instr.reads,
          name ∈ record.scope.declared ∨ name ∈ record.temps) ∧
        ∀ name ∈ record.temps, name ∉ record.scope.names ∧ ComputedIn name record.method.body := by
  have recorded := table.recorded_history programs counters
  refine ⟨table.map_method_history programs counters, recorded.fresh.nodup, ?_⟩
  intro record member
  obtain ⟨start, stop, temps, introduces⟩ := (recorded.sound record member).introduces
  rw [temps]
  constructor
  · intro instr inBody
    refine List.forall_mem_append.mpr ⟨introduces.writes instr inBody, fun name isRead => ?_⟩
    exact (introduces.reads instr inBody name isRead).resolve_left List.not_mem_nil
  · intro name isTaken
    refine ⟨?_, introduces.computes name isTaken⟩
    rw [← Scope.lookup?_isSome_iff, Scope.lookup?_of_mem_taken isTaken]
    exact Bool.false_ne_true

end ClassTable

/-- A class that uses names of temporaries for a field, for the parameter of its static method and
for a local of its other method. -/
def Program.crowded (result : Expr) : Program where
  imports := []
  classDecl :=
    { name := "A"
      superClass := none
      fields := [⟨.ofTy .nowhere .int, "t0", .nowhere⟩]
      methods :=
        [method "s" true [⟨.ofTy .nowhere .int, "t1", false, .nowhere⟩] []
            (sum (sum (.name .nowhere "t1") (.literal .nowhere (.int 2))) (.name .nowhere "t1")),
          method "m" false [] [⟨.ofTy .nowhere .int, "t3", .nowhere⟩] result]
      pos := .nowhere }
  pos := .nowhere
where
  sum (left right : Expr) : Expr := .binary .nowhere (.arith .add) left right
  method (name : String) (isStatic : Bool) (params : List Param) (locals : List VarDecl)
      (result : Expr) : MethodDecl :=
    { name := name
      isPublic := true
      isStatic := isStatic
      returnType := .ofTy .nowhere .int
      params := params
      locals := locals
      body := [.ret .nowhere (some result)]
      pos := .nowhere }

/-- The sum of the field and the local of `Program.crowded`. -/
def Program.crowded.good : Expr := sum (.name .nowhere "t0") (.name .nowhere "t3")

/-- A sum that takes a temporary before its second operand turns out to be missing. -/
def Program.crowded.bad : Expr := sum good (.name .nowhere "missing")

open Program.crowded in
/-- The second of three programs fails, but what it took is not taken again. The static method may
take the name of the field. -/
theorem temps_of_history_crowded :
    ∃ first second third fourth, (ClassTable.ofProgram (.crowded good)).history
        [.crowded good, .crowded bad, .crowded good] {} = [first, second, third, fourth] ∧
      first.temps = ["t0", "t2"] ∧ second.temps = ["t4"] ∧ third.temps = ["t8", "t9"] ∧
      fourth.temps = ["t10"] ∧
      (first.temps ++ second.temps ++ third.temps ++ fourth.temps).Nodup ∧
      "t4" ∉ second.scope.names ∧ ComputedIn "t4" second.method.body := by
  obtain ⟨-, nodup, each⟩ := ClassTable.temps_of_history (.ofProgram (.crowded good))
    [.crowded good, .crowded bad, .crowded good] {}
  have temps : ((ClassTable.ofProgram (.crowded good)).history
      [.crowded good, .crowded bad, .crowded good] {}).map Record.temps =
        [["t0", "t2"], ["t4"], ["t8", "t9"], ["t10"]] := by
    decide +kernel
  simp only [List.map_eq_cons_iff, List.map_eq_nil_iff] at temps
  obtain ⟨first, _, all, firstTemps, second, _, rfl, secondTemps, third, _, rfl, thirdTemps, fourth,
    _, rfl, fourthTemps, rfl⟩ := temps
  rw [all] at nodup each
  have fresh := (each second (by simp)).2 "t4" (by simp [secondTemps])
  refine ⟨first, second, third, fourth, all, firstTemps, secondTemps, thirdTemps, fourthTemps, ?_,
    fresh⟩
  simpa using nodup

end JavaMinus
