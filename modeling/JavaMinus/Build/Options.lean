/-
Options of a build.
-/

import JavaMinus.Jasmin.Assembler

namespace JavaMinus

/-- What can be chosen about a build. -/
structure Options where
  /-- The method that a program starts in. -/
  entryMethod : String := "main"
  /-- Whether `this` is refused in the entry method even if it is not static. -/
  forbidThisInEntry : Bool := true
  /-- Whether a program with errors is refused instead of assembled. -/
  abortOnErrors : Bool := false
  /-- The limit that every method states for its operand stack. -/
  stackLimit : UInt16 := 99
  /-- The limit that every method states for its registers. -/
  localsLimit : UInt16 := 99
deriving DecidableEq, Repr, Inhabited

namespace Options

/-- The method that `this` is refused in whether or not it is static. -/
def thisForbiddenIn (options : Options) : Option String :=
  if options.forbidThisInEntry then some options.entryMethod else none

def limits (options : Options) : Jasmin.Limits := ⟨options.stackLimit, options.localsLimit⟩

end Options

end JavaMinus
