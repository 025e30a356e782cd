/-
This file says when a program is lowered whose expressions and statements are as the
checks ask for: no expression has an unknown type, no instance method is called without
a receiver from a static method, and only variables and elements are assigned to. Then
lowering can only fail on values. It computes the values of some of the expressions of
a body: operands, conditions, arguments, receivers that are not just a name, and what is
assigned or returned, but not a call that stands as a statement. It succeeds if each
expression whose value is computed has one: a name must stand for a variable, and a
call must yield something.

Nothing here looks at lowering. What occurs in such an expression is permitted exactly if
what it computes has values, by induction over the expression, and likewise for
statements.
-/

import JavaMinus.Proofs.Lowering.Occurrences

namespace JavaMinus

/-! ### Expressions whose values are computed -/

namespace Expr

/-- Whether the expression, inside its parentheses, is `this` or a name. A call on it computes no
value that could fail. -/
def isBare (expr : Expr) : Bool :=
  match expr.stripped with
  | .this _ | .name _ _ => true
  | _ => false

mutual

/-- The expressions whose values are computed for that of an expression. -/
def parts (expr : Expr) : List Expr :=
  match expr with
  | .literal _ _ | .name _ _ | .this _ | .newObject _ _ => []
  | .binary _ _ left right => (left :: left.parts) ++ (right :: right.parts)
  | .not _ operand => operand :: operand.parts
  | .call _ none _ args => computedAll args
  | .call _ (some receiver) _ args =>
    (if receiver.isBare then [] else receiver :: receiver.parts) ++ computedAll args
  | .newArray _ size => size :: size.parts
  | .index _ array position => (array :: array.parts) ++ (position :: position.parts)
  | .length _ array => array :: array.parts
  | .arrayLiteral _ elements => computedAll elements
  | .paren _ inner => inner :: inner.parts
termination_by structural expr

/-- The expressions whose values are computed for those of several. -/
def computedAll (exprs : List Expr) : List Expr :=
  match exprs with
  | [] => []
  | expr :: rest => (expr :: expr.parts) ++ computedAll rest
termination_by structural exprs

end

/-- The expression itself and those whose values are computed for it. -/
def computed (expr : Expr) : List Expr := expr :: expr.parts

theorem computedAll_eq_flatMap (exprs : List Expr) :
    computedAll exprs = exprs.flatMap computed := by
  induction exprs with
  | nil => rfl
  | cons expr rest inductionHypothesis =>
    rw [computedAll, inductionHypothesis, List.flatMap_cons, computed]

/-- What a call on an expression computes of it. -/
def computedReceiver : Option Expr → List Expr
  | none => []
  | some receiver => if receiver.isBare then [] else receiver.computed

theorem parts_call (pos : Pos) (receiver : Option Expr) (method : String) (args : List Expr) :
    (call pos receiver method args).parts = computedReceiver receiver ++ computedAll args := by
  cases receiver <;> rw [parts] <;> rfl

/-- What an expression that stands as a statement computes. -/
def evaluated (expr : Expr) : List Expr :=
  match expr.stripped with
  | .call pos receiver method args => (call pos receiver method args).parts
  | _ => expr.computed

theorem evaluated_of_call {expr : Expr} {pos : Pos} {receiver : Option Expr} {method : String}
    {args : List Expr} (isCall : expr.stripped = call pos receiver method args) :
    expr.evaluated = computedReceiver receiver ++ computedAll args := by
  simp only [evaluated, isCall, parts_call]

theorem evaluated_of_not_call {expr : Expr}
    (notCall : ∀ pos receiver method args, expr.stripped ≠ call pos receiver method args) :
    expr.evaluated = expr.computed := by
  rw [evaluated]
  split
  · exact absurd ‹_› (notCall _ _ _ _)
  · rfl

/-- What the target of an assignment computes. -/
def located (target : Expr) : List Expr :=
  match target.stripped with
  | .index pos array position => (index pos array position).parts
  | _ => []

end Expr

namespace Stmt

mutual

/-- The expressions whose values a statement computes. -/
def computed (stmt : Stmt) : List Expr :=
  match stmt with
  | .block _ body => computedBody body
  | .ifElse _ condition thenBranch none => condition.computed ++ thenBranch.computed
  | .ifElse _ condition thenBranch (some elseBranch) =>
    condition.computed ++ thenBranch.computed ++ elseBranch.computed
  | .whileLoop _ condition body => condition.computed ++ body.computed
  | .eval _ expr => expr.evaluated
  | .assign _ target value => target.located ++ value.computed
  | .ret _ none => []
  | .ret _ (some value) => value.computed
termination_by structural stmt

/-- The expressions whose values a body computes. -/
def computedBody (body : List Stmt) : List Expr :=
  match body with
  | [] => []
  | stmt :: rest => stmt.computed ++ computedBody rest
termination_by structural body

end

end Stmt

namespace Scope

/-- Whether an expression has a value of its own, if its parts have: a name must stand for a
variable, and a call must yield something. -/
def hasValue (scope : Scope) (expr : Expr) : Bool :=
  match expr with
  | .name _ name => (scope.lookup? name).isSome
  | .call _ _ _ _ => !(scope.typeOf expr).isVoid && !(scope.typeOf expr).isUnknown
  | _ => true

/-- All of these expressions have values. -/
def Valued (scope : Scope) (exprs : List Expr) : Prop :=
  ∀ expr ∈ exprs, scope.hasValue expr = true

theorem valued_append {scope : Scope} {first second : List Expr} :
    scope.Valued (first ++ second) ↔ scope.Valued first ∧ scope.Valued second :=
  List.forall_mem_append

theorem valued_cons {scope : Scope} {expr : Expr} {rest : List Expr} :
    scope.Valued (expr :: rest) ↔ scope.hasValue expr = true ∧ scope.Valued rest :=
  List.forall_mem_cons

theorem valued_nil {scope : Scope} : scope.Valued [] := nofun

theorem valued_flatMap {scope : Scope} {exprs : List Expr} {each : Expr → List Expr} :
    scope.Valued (exprs.flatMap each) ↔ ∀ expr ∈ exprs, scope.Valued (each expr) := by
  simp only [Valued, List.mem_flatMap]
  exact ⟨fun all expr member inner inside => all inner ⟨expr, member, inside⟩,
    fun all inner ⟨expr, member, inside⟩ => all expr member inner inside⟩

end Scope

/-! ### What is asked for -/

open Observer

namespace Scope

variable {scope : Scope}

/-- What is asked of an expression: its type is known, and a call reaches its method. -/
structure Allows (scope : Scope) (expr : Expr) : Prop where
  known : scope.typeOf expr ≠ .unknown
  reaches : ∀ pos receiver method args, expr = .call pos receiver method args →
    scope.reaches receiver method = true

/-- Whether an expression can be assigned to: an element, or a name that is not that of a class. -/
def isPlace (scope : Scope) (target : Expr) : Bool :=
  match target.stripped with
  | .name _ name => !((scope.lookup? name).isNone && scope.table.isKnownClass name)
  | .index _ _ _ => true
  | _ => false

/-- What is asked of a statement: it assigns only to what can be assigned to. -/
def assigns (scope : Scope) : Stmt → Bool
  | .assign _ target _ => scope.isPlace target
  | _ => true

/-- A name of a known type that is not that of a class is that of a variable. -/
theorem lookup?_isSome_of_nameType {name : String} (known : scope.nameType name ≠ .unknown)
    (notClass : ((scope.lookup? name).isNone && scope.table.isKnownClass name) = false) :
    (scope.lookup? name).isSome = true := by
  cases found : scope.lookup? name with
  | some _ => rfl
  | none =>
    rw [nameType, found] at known
    rw [found, Option.isNone_none, Bool.true_and] at notClass
    exact absurd (if_neg (ne_true_of_eq_false notClass)) known

/-! ### Expressions -/

/-- A receiver that is `this` or a name computes nothing, and of any other its value is needed. -/
theorem permitted_receiver_iff {receiver : Expr} (known : scope.typeOf receiver ≠ .unknown)
    (same : scope.Permitted (.value .unknown) receiver ↔ scope.Valued receiver.computed) :
    scope.Permitted .receiver receiver ↔
      scope.Valued (Expr.computedReceiver (some receiver)) := by
  rw [Expr.computedReceiver]
  split
  · next isBare =>
    refine iff_of_true ?_ valued_nil
    rw [Expr.isBare] at isBare
    rw [← permitted_stripped]
    rw [← typeOf_stripped] at known
    split at isBare
    · next isThis =>
      rw [isThis]
      exact List.forall_mem_singleton.mpr rfl
    · next pos name named =>
      rw [named, typeOf] at known
      rw [named, Permitted, occurrences, List.forall_mem_singleton]
      cases found : scope.lookup? name with
      | some _ => simp [permits, resolves, asks, yields, takes, found]
      | none =>
        have isClass : scope.table.isKnownClass name = true := by
          by_contra unknown
          rw [nameType, found] at known
          exact known (if_neg unknown)
        simp [permits, resolves, asks, yields, takes, isClass]
    · cases isBare
  · next notBare =>
    rw [← same]
    refine permitted_congr ?_
    cases shape : receiver.stripped with
    | name pos name =>
      rw [Expr.isBare, shape] at notBare
      exact absurd rfl notBare
    | _ => rfl

/-- What a call that binds to a method asks of its receiver and its arguments. -/
theorem permitted_operands_iff {receiver : Option Expr} {args : List Expr}
    {expected : Nat → Ty}
    (known : ∀ expr, receiver = some expr → scope.typeOf expr ≠ .unknown)
    (receiverSame : ∀ expr, receiver = some expr →
      (scope.Permitted (.value .unknown) expr ↔ scope.Valued expr.computed))
    (argsSame : ∀ arg ∈ args, ∀ ty,
      scope.Permitted (.value ty) arg ↔ scope.Valued arg.computed) :
    ((∀ expr, receiver = some expr → scope.Permitted .receiver expr) ∧
      ∀ position arg, args[position]? = some arg →
        scope.Permitted (.value (expected position)) arg) ↔
      scope.Valued (Expr.computedReceiver receiver ++ Expr.computedAll args) := by
  rw [valued_append, Expr.computedAll_eq_flatMap, valued_flatMap, ← forall_getElem?]
  refine and_congr ?_ ?_
  · cases receiver with
    | none => exact iff_of_true nofun valued_nil
    | some expr =>
      rw [← permitted_receiver_iff (known expr rfl) (receiverSame expr rfl)]
      simp only [Option.some.injEq, forall_eq']
  · refine forall₃_congr fun position arg found => ?_
    exact argsSame arg (List.mem_of_getElem? found) _

/-- An expression that has a value of its own has one if its parts have. -/
theorem valued_computed {expr : Expr} (value : scope.hasValue expr = true) :
    scope.Valued expr.computed ↔ scope.Valued expr.parts := by
  rw [Expr.computed, valued_cons, and_iff_right value]

/-- What occurs in an expression is permitted exactly if what it computes has values, whatever type
is asked for. -/
theorem permitted_iff_valued {expr : Expr}
    (allowed : ∀ node ∈ everyExpr.onExpr expr, scope.Allows node) (expected : Ty) :
    scope.Permitted (.value expected) expr ↔ scope.Valued expr.computed := by
  induction expr generalizing expected with
  | literal | this | newObject =>
    exact iff_of_true (List.forall_mem_singleton.mpr rfl) (List.forall_mem_singleton.mpr rfl)
  | name pos text =>
    rw [Permitted, occurrences, List.forall_mem_singleton, Expr.computed, Expr.parts, Valued,
      List.forall_mem_singleton]
    simp [permits, resolves, asks, yields, takes, hasValue]
  | binary pos op left right leftSame rightSame =>
    rw [onExpr, List.forall_mem_append, List.forall_mem_append] at allowed
    refine .trans ?_ (valued_computed rfl).symm
    rw [permitted_binary, Expr.parts, valued_append]
    exact and_congr (leftSame allowed.2.1 _) (rightSame allowed.2.2 _)
  | not pos operand same =>
    rw [onExpr, List.forall_mem_append] at allowed
    refine .trans ?_ (valued_computed rfl).symm
    rw [permitted_not, Expr.parts]
    exact same allowed.2 .boolean
  | call pos receiver method args receiverSame argsSame =>
    obtain ⟨itself, onReceiver, onArgs⟩ := forall_onExpr_call.mp allowed
    have allows := itself _ (List.mem_singleton_self _)
    obtain ⟨callee, bound, isType⟩ := callee?_of_known allows.known
    have reaches := allows.reaches pos receiver method args rfl
    have yielded : ((scope.yieldedType receiver method expected).isVoid ||
        (scope.yieldedType receiver method expected).isUnknown) = false ↔
          scope.hasValue (.call pos receiver method args) = true := by
      rw [hasValue, isType, yieldedType, bound, ← Bool.not_or, Bool.not_eq_true']
      rfl
    rw [permitted_callValue, and_iff_right reaches, yielded, permitted_operands_iff
      (fun expr isReceiver => (onReceiver expr isReceiver expr (mem_everyExpr expr)).known)
      (fun expr isReceiver => receiverSame expr isReceiver (onReceiver expr isReceiver) .unknown)
      (fun arg member => argsSame arg member (onArgs arg member)),
      Expr.computed, valued_cons, Expr.parts_call, and_comm]
  | newArray pos size same =>
    rw [onExpr, List.forall_mem_append] at allowed
    refine .trans ?_ (valued_computed rfl).symm
    rw [permitted_newArray, Expr.parts]
    exact same allowed.2 .int
  | index pos array position arraySame positionSame =>
    rw [onExpr, List.forall_mem_append, List.forall_mem_append] at allowed
    refine .trans ?_ (valued_computed rfl).symm
    rw [permitted_index, Expr.parts, valued_append]
    exact and_congr (arraySame allowed.2.1 _) (positionSame allowed.2.2 _)
  | length pos array same =>
    rw [onExpr, List.forall_mem_append] at allowed
    refine .trans ?_ (valued_computed rfl).symm
    rw [permitted_length, Expr.parts]
    exact same allowed.2 .intArray
  | arrayLiteral pos elements same =>
    rw [onExpr, List.forall_mem_append, forall_onExprs] at allowed
    refine .trans ?_ (valued_computed rfl).symm
    rw [permitted_arrayLiteral, Expr.parts, Expr.computedAll_eq_flatMap, valued_flatMap]
    exact forall₂_congr fun element member => same element member (allowed.2 element member) .int
  | paren pos inner same =>
    rw [onExpr, List.forall_mem_append] at allowed
    refine .trans ?_ (valued_computed rfl).symm
    rw [permitted_paren, Expr.parts]
    exact same allowed.2 expected

/-! ### Statements -/

theorem permitted_eval_iff {expr : Expr}
    (allowed : ∀ node ∈ everyExpr.onExpr expr, scope.Allows node) :
    scope.Permitted .statement expr ↔ scope.Valued expr.evaluated := by
  cases shape : expr.stripped with
  | call pos receiver method args =>
    have inside := forall_onExpr_stripped allowed
    rw [shape] at inside
    obtain ⟨itself, onReceiver, onArgs⟩ := forall_onExpr_call.mp inside
    have reaches := (itself _ (List.mem_singleton_self _)).reaches _ _ _ _ rfl
    have permitted : scope.permits ⟨.call pos receiver method args, .statement⟩ = true := by
      simp [permits, resolves, asks, yields, takes, reaches]
    rw [Expr.evaluated_of_call shape, ← permitted_stripped, shape, permitted_call,
      and_iff_right permitted]
    exact permitted_operands_iff
      (fun expr isReceiver => (onReceiver expr isReceiver expr (mem_everyExpr expr)).known)
      (fun expr isReceiver => permitted_iff_valued (onReceiver expr isReceiver) .unknown)
      (fun arg member => permitted_iff_valued (onArgs arg member))
  | _ =>
    rw [Expr.evaluated_of_not_call (by simp [shape]), ← permitted_iff_valued allowed .unknown]
    exact permitted_congr (by rw [shape]; rfl)

theorem permitted_assign_iff {target value : Expr} (isPlace : scope.isPlace target = true)
    (allowedTarget : ∀ node ∈ everyExpr.onExpr target, scope.Allows node)
    (allowedValue : ∀ node ∈ everyExpr.onExpr value, scope.Allows node) :
    (scope.Permitted .target target ∧ scope.Permitted (.value (scope.storedType target)) value) ↔
      scope.Valued (target.located ++ value.computed) := by
  rw [valued_append, permitted_iff_valued allowedValue]
  refine and_congr_left' ?_
  have inside := forall_onExpr_stripped allowedTarget
  rw [Scope.isPlace] at isPlace
  rw [← permitted_stripped, Expr.located]
  split at isPlace
  · next pos name named =>
    rw [Bool.not_eq_true'] at isPlace
    have known := (inside _ (mem_everyExpr _)).known
    rw [named, typeOf] at known
    have isVariable := lookup?_isSome_of_nameType known isPlace
    rw [named]
    refine iff_of_true (List.forall_mem_singleton.mpr ?_) valued_nil
    simp [permits, resolves, asks, yields, takes, isVariable]
  · next pos array position indexed =>
    rw [indexed, onExpr, List.forall_mem_append, List.forall_mem_append] at inside
    simp only [indexed, Expr.parts, valued_append, permitted_index]
    exact and_congr (permitted_iff_valued inside.2.1 _) (permitted_iff_valued inside.2.2 _)
  · cases isPlace

/-- What occurs in statements is permitted exactly if what they compute has values, if that is so of
each. -/
theorem permitted_body_iff_of {body : List Stmt}
    (same : ∀ stmt ∈ body, scope.PermittedStmt stmt ↔ scope.Valued stmt.computed) :
    (∀ occurrence ∈ scope.bodyOccurrences body, scope.permits occurrence = true) ↔
      scope.Valued (Stmt.computedBody body) := by
  induction body with
  | nil => exact iff_of_true (List.forall_mem_nil _) valued_nil
  | cons stmt rest inductionHypothesis =>
    obtain ⟨first, others⟩ := List.forall_mem_cons.mp same
    rw [bodyOccurrences, List.forall_mem_append, Stmt.computedBody, valued_append,
      inductionHypothesis others]
    exact and_congr_left' first

theorem permitted_stmt_iff (stmt : Stmt)
    (allowed : ∀ node ∈ everyExpr.onStmt stmt, scope.Allows node)
    (places : ∀ node ∈ everyStmt.onStmt stmt, scope.assigns node = true) :
    scope.PermittedStmt stmt ↔ scope.Valued stmt.computed := by
  induction stmt with
  | block pos body inductionHypothesis =>
    rw [onStmt, List.forall_mem_append, forall_onBody] at allowed places
    rw [PermittedStmt, stmtOccurrences, Stmt.computed]
    exact permitted_body_iff_of fun stmt member =>
      inductionHypothesis stmt member (allowed.2 stmt member) (places.2 stmt member)
  | ifElse pos condition thenBranch elseBranch thenSame elseSame =>
    cases elseBranch with
    | none =>
      simp only [onStmt, onCondition, List.forall_mem_append] at allowed places
      rw [PermittedStmt, stmtOccurrences, List.forall_mem_append, Stmt.computed, valued_append]
      exact and_congr (permitted_iff_valued allowed.2.1.2 _) (thenSame allowed.2.2 places.2.2)
    | some other =>
      simp only [onStmt, onCondition, List.forall_mem_append] at allowed places
      rw [PermittedStmt, stmtOccurrences, List.forall_mem_append, List.forall_mem_append,
        Stmt.computed, valued_append, valued_append]
      exact and_congr (and_congr (permitted_iff_valued allowed.2.1.1.2 _)
        (thenSame allowed.2.1.2 places.2.1.2)) (elseSame other rfl allowed.2.2 places.2.2)
  | whileLoop pos condition body same =>
    simp only [onStmt, onCondition, List.forall_mem_append] at allowed places
    rw [PermittedStmt, stmtOccurrences, List.forall_mem_append, Stmt.computed, valued_append]
    exact and_congr (permitted_iff_valued allowed.2.1.2 _) (same allowed.2.2 places.2.2)
  | eval pos expr =>
    rw [onStmt, List.forall_mem_append] at allowed
    exact permitted_eval_iff allowed.2
  | assign pos target value =>
    rw [onStmt, List.forall_mem_append] at allowed places
    rw [List.forall_mem_append] at allowed
    rw [PermittedStmt, stmtOccurrences, List.forall_mem_append]
    exact permitted_assign_iff (places.1 _ (List.mem_singleton_self _)) allowed.2.1 allowed.2.2
  | ret pos value =>
    cases value with
    | none => exact iff_of_true (List.forall_mem_nil _) valued_nil
    | some expr =>
      rw [onStmt, List.forall_mem_append] at allowed
      exact permitted_iff_valued allowed.2 _

end Scope

/-! ### Programs -/

namespace ClassTable

/-- A program is lowered exactly if what its bodies compute has values, provided that its
expressions and statements are as they should be. -/
theorem lower_succeeds_iff_of_allowed {program : Program}
    (allowed : ∀ decl ∈ program.classDecl.methods, ∀ node ∈ everyExpr.onBody decl.body,
      Scope.Allows ⟨ofProgram program, .ofDecl decl⟩ node)
    (places : ∀ decl ∈ program.classDecl.methods, ∀ node ∈ everyStmt.onBody decl.body,
      Scope.assigns ⟨ofProgram program, .ofDecl decl⟩ node = true)
    (counters : Counters) :
    (∃ code, ((ofProgram program).lower program counters).1 = .ok code) ↔
      ∀ decl ∈ program.classDecl.methods,
        Scope.Valued ⟨ofProgram program, .ofDecl decl⟩ (Stmt.computedBody decl.body) := by
  refine lower_succeeds_of_decides (fun decl member => ?_) counters
  refine (Scope.body_follows (packsArrays_ofProgram program) decl.body).congr ?_
  have inBody := forall_onBody.mp (allowed decl member)
  have inPlaces := forall_onBody.mp (places decl member)
  exact Scope.permitted_body_iff_of fun stmt isStmt =>
    Scope.permitted_stmt_iff stmt (inBody stmt isStmt) (inPlaces stmt isStmt)

end ClassTable

end JavaMinus
