/-
Trees as a parser hands them over. A node has a kind, named attributes with text
values, children in source order, and a position. Nothing about its shape is
promised; turning a tree into a program checks it, and what it can find wrong is
the type `TreeError`.
-/

import JavaMinus.Position

namespace JavaMinus

/-- A node with its children. -/
structure Tree where
  kind : String
  attributes : List (String × String) := []
  children : List Tree := []
  pos : Pos := Pos.nowhere
deriving Repr, Inhabited

/-- How many children a kind of node has. -/
inductive Arity
  | one
  | two
  | twoOrThree
  | atMostOne
  | atLeastOne
  | oneClass
deriving DecidableEq, Repr, Inhabited

/-- The arity as it is worded in front of "children". -/
def Arity.text : Arity → String
  | .one => "1"
  | .two => "2"
  | .twoOrThree => "2 or 3"
  | .atMostOne => "0 or 1"
  | .atLeastOne => "at least 1"
  | .oneClass => "exactly one ClassDecl among its"

/-- What makes a tree no program. The position is that of the offending node. -/
inductive TreeError
  | unknownKind (pos : Pos) (kind : String)
  | missingAttribute (pos : Pos) (kind key : String)
  | childCount (pos : Pos) (kind : String) (expected : Arity) (found : Nat)
  | unexpectedChild (pos : Pos) (parent kind : String)
  | invalidLiteral (pos : Pos) (text : String)
  | invalidOperator (pos : Pos) (symbol : String)
deriving DecidableEq, Repr, Inhabited

def TreeError.message : TreeError → String
  | .unknownKind pos kind => s!"at {pos.text}: unknown node kind '{kind}'"
  | .missingAttribute pos kind key =>
    s!"at {pos.text}: '{kind}' node is missing attribute '{key}'"
  | .childCount pos kind expected found =>
    s!"at {pos.text}: '{kind}' node expects {expected.text} children, found {found}"
  | .unexpectedChild pos parent kind =>
    s!"at {pos.text}: '{kind}' node is not allowed inside '{parent}'"
  | .invalidLiteral pos text => s!"at {pos.text}: invalid literal '{text}'"
  | .invalidOperator pos symbol => s!"at {pos.text}: unknown binary operator '{symbol}'"

namespace Tree

/-- The value of an attribute, if the node has it. -/
def attribute? (tree : Tree) (key : String) : Option String := tree.attributes.lookup key

/-- Give an attribute a value, which replaces any value it had. -/
def setAttribute (tree : Tree) (key value : String) : Tree :=
  { tree with attributes := (key, value) :: tree.attributes.filter fun entry => entry.1 != key }

/-- Whether a yes-or-no attribute is set. Only the text `true` sets it. -/
def flag (tree : Tree) (key : String) : Bool := tree.attribute? key == some "true"

/-- The value of an attribute that the kind of node requires. -/
def required (tree : Tree) (key : String) : Except TreeError String :=
  match tree.attribute? key with
  | some value => .ok value
  | none => .error (.missingAttribute tree.pos tree.kind key)

/-- The error for a node whose kind asks for another number of children. -/
def miscounted (tree : Tree) (expected : Arity) : TreeError :=
  .childCount tree.pos tree.kind expected tree.children.length

/-- The error for a node that may not stand where it does. -/
def misplaced (tree : Tree) (parent : String) : TreeError :=
  .unexpectedChild tree.pos parent tree.kind

@[simp] theorem attribute?_setAttribute (tree : Tree) (key value : String) :
    (tree.setAttribute key value).attribute? key = some value := by
  simp [attribute?, setAttribute]

end Tree

end JavaMinus
