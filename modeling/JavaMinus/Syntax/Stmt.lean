/-
Statements. A body is a list of statements; blocks nest without opening a scope,
because locals are declared ahead of the body. The target of an assignment is
any expression here: which targets make sense is decided later, by the checks
and by the lowering.
-/

import JavaMinus.Syntax.Expr

namespace JavaMinus

/-- Statements of the language. -/
inductive Stmt
  | block (pos : Pos) (body : List Stmt)
  | ifElse (pos : Pos) (condition : Expr) (thenBranch : Stmt) (elseBranch : Option Stmt)
  | whileLoop (pos : Pos) (condition : Expr) (body : Stmt)
  | eval (pos : Pos) (expr : Expr)
  | assign (pos : Pos) (target value : Expr)
  | ret (pos : Pos) (value : Option Expr)
deriving Repr, Inhabited

namespace Stmt

/-- Where the statement was read. -/
def pos : Stmt → Pos
  | .block pos _ | .ifElse pos _ _ _ | .whileLoop pos _ _ | .eval pos _ | .assign pos _ _
  | .ret pos _ => pos

/-- Induction over statements. For a block the hypothesis covers every statement in it; for an
`if` it covers both branches, as far as they are there. -/
@[elab_as_elim, induction_eliminator]
theorem induct {motive : Stmt → Prop}
    (block : ∀ pos body, (∀ stmt ∈ body, motive stmt) → motive (block pos body))
    (ifElse : ∀ pos condition thenBranch elseBranch, motive thenBranch →
      (∀ stmt, elseBranch = some stmt → motive stmt) →
      motive (ifElse pos condition thenBranch elseBranch))
    (whileLoop : ∀ pos condition body, motive body → motive (whileLoop pos condition body))
    (eval : ∀ pos expr, motive (eval pos expr))
    (assign : ∀ pos target value, motive (assign pos target value))
    (ret : ∀ pos value, motive (ret pos value))
    (stmt : Stmt) : motive stmt :=
  @Stmt.rec motive (fun body => ∀ inner ∈ body, motive inner)
    (fun branch => ∀ inner, branch = some inner → motive inner)
    block ifElse whileLoop eval assign ret
    (fun _ member => nomatch member)
    (fun _ _ holds rest inner member => by
      rcases List.mem_cons.mp member with equal | member
      · exact equal ▸ holds
      · exact rest inner member)
    (fun _ equal => nomatch equal)
    (fun _ holds _ equal => Option.some.inj equal ▸ holds)
    stmt

end Stmt

end JavaMinus
