/-
Types of the language. A type is a base name together with the question whether
it is an array; there are no arrays of arrays. The base name is free text,
because a class may be named before anything is known about it. The empty base
name is the unknown type: typing gives it to what it cannot tell, and the checks
stay silent about it.
-/

namespace JavaMinus

/-- A base name, or an array whose elements have that base name. -/
structure Ty where
  base : String
  isArray : Bool
deriving DecidableEq, Repr, Inhabited

namespace Ty

/-! ### The types with a name of their own -/

/-- The type with this base name that is no array. -/
def named (base : String) : Ty := ⟨base, false⟩

/-- The array type with elements of this base name. -/
def arrayOf (base : String) : Ty := ⟨base, true⟩

def int : Ty := named "int"

def boolean : Ty := named "boolean"

def void : Ty := named "void"

def intArray : Ty := arrayOf "int"

/-- The type of what typing cannot tell. -/
def unknown : Ty := named ""

/-! ### Classification -/

/-- A type without a base name says nothing, also as an array. -/
def isUnknown (ty : Ty) : Bool := ty.base == ""

def isInt (ty : Ty) : Bool := !ty.isArray && ty.base == "int"

def isBoolean (ty : Ty) : Bool := !ty.isArray && ty.base == "boolean"

def isVoid (ty : Ty) : Bool := !ty.isArray && ty.base == "void"

/-- Integers and truth values are both held as 32-bit words. -/
def isWord (ty : Ty) : Bool := ty.isInt || ty.isBoolean

/-- A class type is any other base name that is not an array. -/
def isClass (ty : Ty) : Bool :=
  !ty.isArray && !ty.isUnknown && !ty.isWord && !ty.isVoid

/-- The type of an array's elements; nothing else has elements. -/
def element? (ty : Ty) : Option Ty :=
  if ty.isArray then some (named ty.base) else none

/-- The type as it is written in messages. -/
def text (ty : Ty) : String :=
  if ty.isUnknown then "<unknown>" else if ty.isArray then ty.base ++ "[]" else ty.base

/-! ### How the classes relate -/

theorem eq_int_iff (ty : Ty) : ty = int ↔ ty.isInt = true := by
  cases ty with
  | mk base isArray => cases isArray <;> simp [int, named, isInt]

theorem eq_boolean_iff (ty : Ty) : ty = boolean ↔ ty.isBoolean = true := by
  cases ty with
  | mk base isArray => cases isArray <;> simp [boolean, named, isBoolean]

end Ty

/-- A name together with its declared type. -/
structure Binding where
  name : String
  ty : Ty
deriving DecidableEq, Repr, Inhabited

end JavaMinus
