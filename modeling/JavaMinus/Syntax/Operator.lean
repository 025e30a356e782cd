/-
Binary operators. The four arithmetic operators take integers to an integer and
survive into the code as they are. The comparison and the two logical operators
yield truth values and are compiled to jumps, which is why arithmetic is a type
of its own inside the type of all binary operators.
-/

namespace JavaMinus

/-- Operators from two integers to an integer. -/
inductive ArithOp
  | add
  | sub
  | mul
  | div
deriving DecidableEq, Repr, Inhabited

def ArithOp.symbol : ArithOp → String
  | .add => "+"
  | .sub => "-"
  | .mul => "*"
  | .div => "/"

/-- Operators with two operands. The only comparison is `<`. -/
inductive BinaryOp
  | arith (op : ArithOp)
  | less
  | and
  | or
deriving DecidableEq, Repr, Inhabited

namespace BinaryOp

/-- The operator as it is written. -/
def symbol : BinaryOp → String
  | .arith op => op.symbol
  | .less => "<"
  | .and => "&&"
  | .or => "||"

/-- The operator that is written this way, if there is one. -/
def ofSymbol? : String → Option BinaryOp
  | "+" => some (.arith .add)
  | "-" => some (.arith .sub)
  | "*" => some (.arith .mul)
  | "/" => some (.arith .div)
  | "<" => some .less
  | "&&" => some .and
  | "||" => some .or
  | _ => none

def isArithmetic : BinaryOp → Bool
  | .arith _ => true
  | _ => false

def isComparison : BinaryOp → Bool
  | .less => true
  | _ => false

def isLogical : BinaryOp → Bool
  | .and | .or => true
  | _ => false

@[simp] theorem ofSymbol?_symbol (op : BinaryOp) : ofSymbol? op.symbol = some op := by
  cases op with
  | arith op => cases op <;> rfl
  | less => rfl
  | and => rfl
  | or => rfl

end BinaryOp

end JavaMinus
