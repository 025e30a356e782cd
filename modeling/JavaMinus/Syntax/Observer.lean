/-
Walking a method body. An observer says what to note at a statement, at the
condition of an `if` or `while`, and at an expression; the walk visits every
node of a body once, a node before its parts and the parts in source order, and
strings the notes together. The condition is noted as such before it is noted as
an expression. Everything that inspects bodies node by node is an observer, so
the order of the notes is settled here once.
-/

import JavaMinus.Syntax.Stmt

namespace JavaMinus

/-- What to note at each kind of node. -/
structure Observer (Note : Type) where
  stmt : Stmt → List Note := fun _ => []
  condition : Expr → List Note := fun _ => []
  expr : Expr → List Note := fun _ => []

namespace Observer

variable {Note : Type}

mutual

/-- The notes on an expression and its parts. -/
def onExpr (observer : Observer Note) (expr : Expr) : List Note :=
  observer.expr expr ++
    match expr with
    | .literal _ _ | .name _ _ | .this _ | .newObject _ _ => []
    | .binary _ _ left right => observer.onExpr left ++ observer.onExpr right
    | .not _ operand => observer.onExpr operand
    | .call _ none _ args => observer.onExprs args
    | .call _ (some receiver) _ args => observer.onExpr receiver ++ observer.onExprs args
    | .newArray _ size => observer.onExpr size
    | .index _ array position => observer.onExpr array ++ observer.onExpr position
    | .length _ array => observer.onExpr array
    | .arrayLiteral _ elements => observer.onExprs elements
    | .paren _ inner => observer.onExpr inner
termination_by structural expr

/-- The notes on expressions that stand side by side. -/
def onExprs (observer : Observer Note) (exprs : List Expr) : List Note :=
  match exprs with
  | [] => []
  | expr :: rest => observer.onExpr expr ++ observer.onExprs rest
termination_by structural exprs

end

/-- The notes on a condition and its parts. -/
def onCondition (observer : Observer Note) (condition : Expr) : List Note :=
  observer.condition condition ++ observer.onExpr condition

mutual

/-- The notes on a statement and its parts. -/
def onStmt (observer : Observer Note) (stmt : Stmt) : List Note :=
  observer.stmt stmt ++
    match stmt with
    | .block _ body => observer.onBody body
    | .ifElse _ condition thenBranch none =>
      observer.onCondition condition ++ observer.onStmt thenBranch
    | .ifElse _ condition thenBranch (some elseBranch) =>
      observer.onCondition condition ++ observer.onStmt thenBranch ++ observer.onStmt elseBranch
    | .whileLoop _ condition body => observer.onCondition condition ++ observer.onStmt body
    | .eval _ expr => observer.onExpr expr
    | .assign _ target value => observer.onExpr target ++ observer.onExpr value
    | .ret _ none => []
    | .ret _ (some value) => observer.onExpr value
termination_by structural stmt

/-- The notes on a list of statements, one after the other. -/
def onBody (observer : Observer Note) (body : List Stmt) : List Note :=
  match body with
  | [] => []
  | stmt :: rest => observer.onStmt stmt ++ observer.onBody rest
termination_by structural body

end

theorem onExprs_eq_flatMap (observer : Observer Note) (exprs : List Expr) :
    observer.onExprs exprs = exprs.flatMap observer.onExpr := by
  induction exprs with
  | nil => rw [onExprs, List.flatMap_nil]
  | cons expr rest inductionHypothesis => rw [onExprs, inductionHypothesis, List.flatMap_cons]

theorem onBody_eq_flatMap (observer : Observer Note) (body : List Stmt) :
    observer.onBody body = body.flatMap observer.onStmt := by
  induction body with
  | nil => rw [onBody, List.flatMap_nil]
  | cons stmt rest inductionHypothesis => rw [onBody, inductionHypothesis, List.flatMap_cons]

end Observer

end JavaMinus
