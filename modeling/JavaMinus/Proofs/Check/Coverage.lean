/-
This file shows that the checks on bodies miss nothing and repeat nothing. A body
is a tree of constructs: each statement and each expression is made of parts, in
source order. The places of a construct are the paths that lead to all constructs
in it, each path once and in the order in which a reader comes to them, a
construct before its parts. What a check reports on a program is what it has to
say at each place, on the construct that stands there and nothing else, strung
together in this order.

A walk over a body comes down to one equation: the notes on a construct are those
on itself, followed by the notes on its parts.
-/

import JavaMinus.Proofs.Check.Clean

namespace JavaMinus

/-! ### Constructs and their places -/

/-- A statement or an expression of a body. -/
inductive Construct
  | stmt (stmt : Stmt)
  | expr (expr : Expr)

namespace Construct

/-- The statements and expressions that a construct is directly made of, in source order. -/
def parts : Construct → List Construct
  | .stmt (.block _ body) => body.map .stmt
  | .stmt (.ifElse _ condition thenBranch elseBranch) =>
    .expr condition :: .stmt thenBranch :: elseBranch.toList.map .stmt
  | .stmt (.whileLoop _ condition body) => [.expr condition, .stmt body]
  | .stmt (.eval _ inner) => [.expr inner]
  | .stmt (.assign _ target value) => [.expr target, .expr value]
  | .stmt (.ret _ value) => value.toList.map .expr
  | .expr (.literal _ _) | .expr (.name _ _) | .expr (.this _) | .expr (.newObject _ _) => []
  | .expr (.binary _ _ left right) => [.expr left, .expr right]
  | .expr (.not _ inner) | .expr (.newArray _ inner) | .expr (.length _ inner)
  | .expr (.paren _ inner) => [.expr inner]
  | .expr (.call _ receiver _ args) => receiver.toList.map .expr ++ args.map .expr
  | .expr (.index _ array position) => [.expr array, .expr position]
  | .expr (.arrayLiteral _ elements) => elements.map .expr

/-- The construct that a path leads to: each step goes to the part with that number. -/
def at? (construct : Construct) : List Nat → Option Construct
  | [] => some construct
  | position :: rest => construct.parts[position]?.bind fun part => part.at? rest

theorem sizeOf_lt_of_mem_parts {construct part : Construct} (member : part ∈ construct.parts) :
    sizeOf part < sizeOf construct := by
  cases construct with
  | stmt whole =>
    cases whole with
    | block pos body => grind [parts, → List.sizeOf_lt_of_mem]
    | ifElse pos condition thenBranch elseBranch => cases elseBranch <;> grind [parts]
    | whileLoop | eval | assign => grind [parts]
    | ret pos value => cases value <;> grind [parts]
  | expr whole =>
    cases whole with
    | literal | name | this | newObject => cases member
    | binary | not | newArray | index | length | paren => grind [parts]
    | call pos receiver method args => cases receiver <;> grind [parts, → List.sizeOf_lt_of_mem]
    | arrayLiteral pos elements => grind [parts, → List.sizeOf_lt_of_mem]

/-- Induction over constructs: what holds of a construct if it holds of its parts holds of all. -/
@[elab_as_elim]
theorem induct {motive : Construct → Prop}
    (step : ∀ construct : Construct, (∀ part ∈ construct.parts, motive part) → motive construct)
    (construct : Construct) : motive construct :=
  step construct fun part member =>
    have := sizeOf_lt_of_mem_parts member
    induct step part
termination_by construct

/-- All constructs in a construct, each with the path that leads to it: first itself, then those in
its parts, part by part. -/
def places (construct : Construct) : List (List Nat × Construct) :=
  ([], construct) :: construct.parts.attach.zipIdx.flatMap fun entry =>
    (places entry.1.1).map fun place => (entry.2 :: place.1, place.2)
termination_by construct
decreasing_by exact sizeOf_lt_of_mem_parts entry.1.2

theorem places_eq (construct : Construct) :
    construct.places = ([], construct) :: construct.parts.zipIdx.flatMap fun entry =>
      entry.1.places.map fun place => (entry.2 :: place.1, place.2) := by
  rw [places]
  congr 1
  have numbered : construct.parts.zipIdx =
      construct.parts.attach.zipIdx.map fun entry => (entry.1.1, entry.2) := by
    conv_lhs => rw [← List.attach_map_subtype_val construct.parts]
    rw [List.zipIdx_map]
    rfl
  rw [numbered, List.flatMap_map]

/-- A list names each construct in another one once, with the path that leads to it, and in source
order: what stands first comes first, and a construct comes before its parts. -/
structure InSourceOrder (construct : Construct) (places : List (List Nat × Construct)) : Prop where
  sorted : places.Pairwise fun first second => first.1 < second.1
  complete : ∀ path found, (path, found) ∈ places ↔ construct.at? path = some found

theorem mem_places_iff {construct found : Construct} {path : List Nat} :
    (path, found) ∈ construct.places ↔ construct.at? path = some found := by
  induction construct using Construct.induct generalizing path with
  | step construct inductionHypothesis =>
    rw [places_eq, List.mem_cons, List.mem_flatMap]
    cases path with
    | nil => simp [at?, eq_comm]
    | cons position rest =>
      rw [at?, Option.bind_eq_some_iff]
      constructor
      · rintro (isRoot | ⟨⟨part, number⟩, isPart, isPlace⟩)
        · simp at isRoot
        · obtain ⟨⟨inner, other⟩, isInner, same⟩ := List.mem_map.mp isPlace
          simp only [Prod.mk.injEq, List.cons.injEq] at same
          obtain ⟨⟨rfl, rfl⟩, rfl⟩ := same
          have numbered := List.mk_mem_zipIdx_iff_getElem?.mp isPart
          have member := List.mem_of_getElem? numbered
          exact ⟨part, numbered, (inductionHypothesis part member).mp isInner⟩
      · rintro ⟨part, numbered, leads⟩
        have member := List.mem_of_getElem? numbered
        refine .inr ⟨(part, position), List.mk_mem_zipIdx_iff_getElem?.mpr numbered, ?_⟩
        exact List.mem_map.mpr ⟨(rest, found), (inductionHypothesis part member).mpr leads, rfl⟩

theorem pairwise_places (construct : Construct) :
    construct.places.Pairwise fun first second => first.1 < second.1 := by
  induction construct using Construct.induct with
  | step construct inductionHypothesis =>
    rw [places_eq, List.pairwise_cons, List.pairwise_flatMap]
    refine ⟨fun place member => ?_, fun entry member => ?_, ?_⟩
    · obtain ⟨entry, -, isPlace⟩ := List.mem_flatMap.mp member
      obtain ⟨inner, -, rfl⟩ := List.mem_map.mp isPlace
      exact List.nil_lt_cons _ _
    · have isPart := List.fst_mem_of_mem_zipIdx member
      refine List.pairwise_map.mpr ((inductionHypothesis entry.1 isPart).imp fun less => ?_)
      exact List.cons_lt_cons_iff.mpr (.inr ⟨rfl, less⟩)
    · -- Paths into different parts differ at their first step.
      have numbers : (construct.parts.zipIdx.map Prod.snd).Pairwise (· < ·) := by
        rw [List.zipIdx_map_snd]
        exact List.pairwise_lt_range'
      refine (List.pairwise_map.mp numbers).imp fun before place isPlace other isOther => ?_
      obtain ⟨inner, -, rfl⟩ := List.mem_map.mp isPlace
      obtain ⟨innerOther, -, rfl⟩ := List.mem_map.mp isOther
      exact List.cons_lt_cons_iff.mpr (.inl before)

theorem inSourceOrder_places (construct : Construct) : construct.InSourceOrder construct.places :=
  ⟨construct.pairwise_places, fun _ _ => mem_places_iff⟩

end Construct

namespace Observer

variable {Note : Type}

/-- The notes on a construct itself. At an `if` or `while`, its condition is noted as such. -/
def noteAt (observer : Observer Note) : Construct → List Note
  | .stmt stmt =>
    observer.stmt stmt ++
      match stmt with
      | .ifElse _ condition _ _ | .whileLoop _ condition _ => observer.condition condition
      | _ => []
  | .expr expr => observer.expr expr

/-- The notes on a construct and its parts. -/
def onConstruct (observer : Observer Note) : Construct → List Note
  | .stmt stmt => observer.onStmt stmt
  | .expr expr => observer.onExpr expr

/-- The walk notes a construct and goes on to each of its parts. -/
theorem onConstruct_eq (observer : Observer Note) (construct : Construct) :
    observer.onConstruct construct =
      observer.noteAt construct ++ construct.parts.flatMap observer.onConstruct := by
  cases construct with
  | stmt whole =>
    cases whole with
    | block pos body =>
      simp [onConstruct, onStmt, noteAt, Construct.parts, onBody_eq_flatMap, List.flatMap_map]
    | ifElse pos condition thenBranch elseBranch =>
      cases elseBranch <;> simp [onConstruct, onStmt, onCondition, noteAt, Construct.parts]
    | whileLoop | eval | assign =>
      simp [onConstruct, onStmt, onCondition, noteAt, Construct.parts]
    | ret pos value => cases value <;> simp [onConstruct, onStmt, noteAt, Construct.parts]
  | expr whole =>
    cases whole with
    | literal | name | this | newObject | binary | not | newArray | index | length | paren =>
      simp [onConstruct, onExpr, noteAt, Construct.parts]
    | call pos receiver method args =>
      cases receiver <;>
        simp [onConstruct, onExpr, noteAt, Construct.parts, onExprs_eq_flatMap, List.flatMap_map]
    | arrayLiteral pos elements =>
      simp [onConstruct, onExpr, noteAt, Construct.parts, onExprs_eq_flatMap, List.flatMap_map]

/-- The notes on a construct and its parts are the notes at all places in it, in source order. -/
theorem onConstruct_eq_flatMap_places (observer : Observer Note) (construct : Construct) :
    observer.onConstruct construct =
      construct.places.flatMap fun place => observer.noteAt place.2 := by
  induction construct using Construct.induct with
  | step construct inductionHypothesis =>
    have parts : construct.parts.flatMap observer.onConstruct =
        construct.parts.zipIdx.flatMap fun entry =>
          entry.1.places.flatMap fun place => observer.noteAt place.2 := by
      rw [List.flatMap_congr inductionHypothesis]
      conv_lhs => rw [← List.zipIdx_map_fst 0 construct.parts, List.flatMap_map]
    rw [onConstruct_eq, Construct.places_eq, List.flatMap_cons, List.flatMap_assoc, parts]
    simp only [List.flatMap_map]

end Observer

/-! ### The checks on bodies -/

namespace Check

/-- What a check on bodies has to say about a single construct in the scope of its method. -/
def noteAt : Check → Scope → Construct → List Diagnostic
  | .undeclaredVariable, scope, .expr expr => undeclaredName scope expr
  | .undeclaredMethod, scope, .expr expr => undeclaredCallee scope expr
  | .methodCallArity, scope, .expr expr => callMisfits scope expr
  | .assignmentCompatibility, scope, .stmt stmt => storedMisfits scope stmt
  | .binaryOperandCompatibility, scope, .expr expr => operandMisfits scope expr
  | .conditionExpression, scope, .stmt (.ifElse _ condition _ _)
  | .conditionExpression, scope, .stmt (.whileLoop _ condition _) => conditionMisfit scope condition
  | .arrayIndexType, scope, .expr expr => accessMisfits scope expr
  | .returnCompatibility, scope, .stmt stmt => returnedMisfits scope stmt
  | .thisUsage entry, scope, .expr expr =>
    (refusal? entry scope).toList.flatMap fun refusal => receiverMisuse refusal scope expr
  | _, _, _ => []

/-- Whether a check looks at bodies. Two checks look at declarations alone, and undeclared methods
are not looked for where they may be inherited. -/
def readsBodies (table : ClassTable) : Check → Bool
  | .duplicateDeclarations | .varargsPlacement => false
  | .undeclaredMethod => table.superClass.isNone
  | _ => true

theorem overBodies_eq (observer : Scope → Observer Diagnostic) (program : Program) :
    overBodies observer program (.ofProgram program) =
      .ok (program.classDecl.methods.flatMap fun decl => decl.body.flatMap fun stmt =>
        (Construct.stmt stmt).places.flatMap fun place =>
          (observer ⟨.ofProgram program, .ofDecl decl⟩).noteAt place.2) := by
  rw [overBodies, ClassTable.scopes_ofProgram]
  change Except.ok _ = _
  rw [List.flatMap_map]
  simp only [Observer.onBody_eq_flatMap, ← Observer.onConstruct_eq_flatMap_places]
  rfl

/-- What a check on bodies notes on its way. -/
def observer : Check → Scope → Observer Diagnostic
  | .duplicateDeclarations | .varargsPlacement => fun _ => {}
  | .undeclaredVariable => undeclaredVariables
  | .undeclaredMethod => undeclaredMethods
  | .methodCallArity => arguments
  | .assignmentCompatibility => assignments
  | .binaryOperandCompatibility => operands
  | .conditionExpression => conditions
  | .arrayIndexType => accesses
  | .returnCompatibility => returns
  | .thisUsage entry => receivers entry

theorem run_eq_overBodies {check : Check} {program : Program} {table : ClassTable}
    (reads : check.readsBodies table = true) :
    check.run program table = overBodies check.observer program table := by
  cases check with
  | duplicateDeclarations | varargsPlacement => cases reads
  | undeclaredMethod =>
    rw [readsBodies, Option.isNone_iff_eq_none] at reads
    rw [run, reads]
    rfl
  | _ => rfl

/-- On its way, a check notes what it has to say about single constructs. -/
theorem noteAt_observer (check : Check) (scope : Scope) (construct : Construct) :
    (check.observer scope).noteAt construct = check.noteAt scope construct := by
  cases construct with
  | expr expr =>
    cases check with
    | thisUsage entry =>
      rw [Observer.noteAt, observer, receivers, noteAt]
      cases refusal? entry scope <;> simp
    | _ => rfl
  | stmt stmt =>
    cases check <;> cases stmt <;>
      first
        | rfl
        | exact List.append_nil _

/-- A check on bodies reports what it has to say about each construct, once for each place and in
source order: method by method, statement by statement, and place by place. -/
theorem run_eq_flatMap_places {check : Check} {program : Program}
    (reads : check.readsBodies (.ofProgram program) = true) :
    check.run program (.ofProgram program) =
        .ok (program.classDecl.methods.flatMap fun decl => decl.body.flatMap fun stmt =>
          (Construct.stmt stmt).places.flatMap fun place =>
            check.noteAt ⟨.ofProgram program, .ofDecl decl⟩ place.2) ∧
      ∀ construct : Construct, construct.InSourceOrder construct.places := by
  refine ⟨?_, Construct.inSourceOrder_places⟩
  rw [run_eq_overBodies reads, overBodies_eq]
  simp only [noteAt_observer]

end Check

/-- Undeclared names in a condition, in the target and the value of an assignment, in an array
literal and in an argument. -/
def Program.astray : Program :=
  .ofBody
    [.whileLoop ⟨1, 1⟩ (.not ⟨1, 8⟩ (.paren ⟨1, 9⟩ (.name ⟨1, 10⟩ "x")))
      (.block ⟨1, 13⟩
        [.ifElse ⟨2, 3⟩ (.literal ⟨2, 7⟩ (.bool true)) (.ret ⟨2, 13⟩ none)
          (some (.assign ⟨3, 8⟩
            (.index ⟨3, 8⟩ (.name ⟨3, 8⟩ "y")
              (.length ⟨3, 10⟩ (.arrayLiteral ⟨3, 10⟩ [.name ⟨3, 11⟩ "z"])))
            (.call ⟨3, 24⟩ (some (.newObject ⟨3, 24⟩ "A")) "f"
              [.newArray ⟨3, 34⟩ (.name ⟨3, 42⟩ "x")])))])]

theorem run_eq_flatMap_places_astray :
    Check.readsBodies (.ofProgram .astray) .undeclaredVariable = true ∧
    (Program.astray.classDecl.methods.flatMap fun decl => decl.body.flatMap fun stmt =>
        (Construct.stmt stmt).places.flatMap fun place =>
          Check.noteAt .undeclaredVariable ⟨.ofProgram .astray, .ofDecl decl⟩ place.2) =
      [.error ⟨1, 10⟩ "Variable 'x' does not exist.", .error ⟨3, 8⟩ "Variable 'y' does not exist.",
        .error ⟨3, 11⟩ "Variable 'z' does not exist.",
        .error ⟨3, 42⟩ "Variable 'x' does not exist."] := by
  have reads : Check.readsBodies (.ofProgram .astray) .undeclaredVariable = true := rfl
  exact ⟨reads, Except.ok.inj ((Check.run_eq_flatMap_places reads).1.symm.trans rfl)⟩

end JavaMinus
