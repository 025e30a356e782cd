/-
Expressions. Every expression carries the position it was read at. Parentheses
are kept as nodes of their own, since descriptions in messages show them; where
they must not matter, `Expr.stripped` looks through them. The induction
principle at the end treats the receiver and the arguments of a call, and the
elements of an array literal, as further expressions about which the induction
hypothesis may be used.
-/

import JavaMinus.Position
import JavaMinus.Syntax.Operator

namespace JavaMinus

/-- Literals are 32-bit integers and truth values. -/
inductive Literal
  | int (value : Int32)
  | bool (value : Bool)
deriving DecidableEq, Repr, Inhabited

/-- A literal as it is written: decimal digits with a sign if negative, or a truth value. -/
def Literal.text : Literal → String
  | .int value => toString value.toInt
  | .bool true => "true"
  | .bool false => "false"

/-- Expressions of the language. A name stands for a variable or, as the receiver of a call,
possibly for a class. -/
inductive Expr
  | literal (pos : Pos) (value : Literal)
  | name (pos : Pos) (name : String)
  | this (pos : Pos)
  | binary (pos : Pos) (op : BinaryOp) (left right : Expr)
  | not (pos : Pos) (operand : Expr)
  | call (pos : Pos) (receiver : Option Expr) (method : String) (args : List Expr)
  | newObject (pos : Pos) (className : String)
  | newArray (pos : Pos) (size : Expr)
  | index (pos : Pos) (array position : Expr)
  | length (pos : Pos) (array : Expr)
  | arrayLiteral (pos : Pos) (elements : List Expr)
  | paren (pos : Pos) (inner : Expr)
deriving Repr, Inhabited

namespace Expr

/-- Where the expression was read. -/
def pos : Expr → Pos
  | .literal pos _ | .name pos _ | .this pos | .binary pos _ _ _ | .not pos _ | .call pos _ _ _
  | .newObject pos _ | .newArray pos _ | .index pos _ _ | .length pos _ | .arrayLiteral pos _
  | .paren pos _ => pos

/-- The expression inside all enclosing parentheses. -/
def stripped : Expr → Expr
  | .paren _ inner => inner.stripped
  | expr => expr

/-- A short text like the source, for messages. Arguments and elements are left out. -/
def describe : Expr → String
  | .literal _ value => value.text
  | .name _ text => text
  | .this _ => "this"
  | .binary _ op left right => s!"{left.describe} {op.symbol} {right.describe}"
  | .not _ operand => s!"!{operand.describe}"
  | .call _ (some receiver) method _ => s!"{receiver.describe}.{method}(...)"
  | .call _ none method _ => s!"{method}(...)"
  | .newObject _ className => s!"new {className}()"
  | .newArray _ size => s!"new int[{size.describe}]"
  | .index _ array position => s!"{array.describe}[{position.describe}]"
  | .length _ array => s!"{array.describe}.length"
  | .arrayLiteral _ _ => "[...]"
  | .paren _ inner => s!"({inner.describe})"

/-- Whether the expression, inside its parentheses, is the receiver of the method. -/
def isThis (expr : Expr) : Bool :=
  match expr.stripped with
  | .this _ => true
  | _ => false

@[simp] theorem stripped_paren (pos : Pos) (inner : Expr) :
    (paren pos inner).stripped = inner.stripped := by
  rw [stripped]

/-- What is left after stripping has no parentheses around it. -/
theorem stripped_ne_paren (expr : Expr) (pos : Pos) (inner : Expr) :
    expr.stripped ≠ paren pos inner := by
  fun_induction stripped expr with
  | case1 _ _ inductionHypothesis => exact inductionHypothesis
  | case2 expr notParen => exact fun equal => notParen pos inner equal

/-! ### Induction -/

/-- Induction over expressions. For a call the hypothesis covers the receiver, if there is one,
and every argument; for an array literal it covers every element. -/
@[elab_as_elim, induction_eliminator]
theorem induct {motive : Expr → Prop}
    (literal : ∀ pos value, motive (literal pos value))
    (name : ∀ pos text, motive (name pos text))
    (this : ∀ pos, motive (this pos))
    (binary : ∀ pos op left right, motive left → motive right → motive (binary pos op left right))
    (not : ∀ pos operand, motive operand → motive (not pos operand))
    (call : ∀ pos receiver method args, (∀ expr, receiver = some expr → motive expr) →
      (∀ arg ∈ args, motive arg) → motive (call pos receiver method args))
    (newObject : ∀ pos className, motive (newObject pos className))
    (newArray : ∀ pos size, motive size → motive (newArray pos size))
    (index : ∀ pos array position, motive array → motive position →
      motive (index pos array position))
    (length : ∀ pos array, motive array → motive (length pos array))
    (arrayLiteral : ∀ pos elements, (∀ element ∈ elements, motive element) →
      motive (arrayLiteral pos elements))
    (paren : ∀ pos inner, motive inner → motive (paren pos inner))
    (expr : Expr) : motive expr :=
  @Expr.rec motive (fun receiver => ∀ inner, receiver = some inner → motive inner)
    (fun exprs => ∀ inner ∈ exprs, motive inner)
    literal name this binary not call newObject newArray index length arrayLiteral paren
    (fun _ equal => nomatch equal)
    (fun _ holds _ equal => Option.some.inj equal ▸ holds)
    (fun _ member => nomatch member)
    (fun _ _ holds rest inner member => by
      rcases List.mem_cons.mp member with equal | member
      · exact equal ▸ holds
      · exact rest inner member)
    expr

end Expr

end JavaMinus
