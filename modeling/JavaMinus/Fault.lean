/-
Faults: what stops the compiler. A wrong program is reported by diagnostics; a
fault is raised where the compiler cannot go on, in pairing methods with
signatures, in lowering a body, or in assembling code. Each fault is a cause
with the things it concerns; its kind and its message are read off the cause.
-/

import JavaMinus.Code.Listing

namespace JavaMinus

/-- The kinds of faults. -/
inductive FaultKind
  | unsupportedType
  | malformedInstruction
  | unresolvedSymbol
  | unknownMethod
  | missingContext
deriving DecidableEq, Repr, Inhabited

/-- Why the compiler cannot go on. -/
inductive Fault
  /-- There is no descriptor for this type. -/
  | noDescriptor (ty : Ty)
  /-- A call yields nothing that could be used as a value. -/
  | noCallValue (ty : Ty) (method : String)
  /-- The target of an assignment is neither a variable nor an element. -/
  | notAssignable (target : Expr)
  /-- A call yields a value that is neither assigned nor discarded. -/
  | unusedResult (method : String)
  /-- Only calls can be discarded. -/
  | notDiscardable (instr : Instr)
  /-- The instruction makes sense only as the right-hand side of an assignment. -/
  | notStandalone (instr : Instr)
  /-- The instruction cannot be the right-hand side of an assignment. -/
  | notValue (instr : Instr)
  /-- A method that returns a value returns without one. -/
  | noReturnValue (method : String)
  /-- The kind of a call and its target do not fit together. -/
  | mismatchedTarget (method : String)
  /-- A name stands for no variable of the method. -/
  | unresolved (pos : Pos) (name method : String)
  /-- No method has this name. -/
  | unknownMethod (name : String)
  /-- The class table has no signature for this method. -/
  | noSignature (method : String)
  /-- An instance method is called without a receiver from a static method. -/
  | noReceiver (callee caller : String)
deriving Repr, Inhabited

namespace Fault

def kind : Fault → FaultKind
  | .noDescriptor _ | .noCallValue _ _ => .unsupportedType
  | .notAssignable _ | .unusedResult _ | .notDiscardable _ | .notStandalone _ | .notValue _
  | .noReturnValue _ | .mismatchedTarget _ => .malformedInstruction
  | .unresolved _ _ _ => .unresolvedSymbol
  | .unknownMethod _ => .unknownMethod
  | .noSignature _ | .noReceiver _ _ => .missingContext

/-- Where in the source the fault lies; only unresolved names remember it. -/
def pos? : Fault → Option Pos
  | .unresolved pos _ _ => some pos
  | _ => none

/-- The fault in words; faults of one kind begin alike. -/
def message : Fault → String
  | .noDescriptor ty => s!"unsupported type '{ty.text}' in a type descriptor"
  | .noCallValue ty method => s!"unsupported type '{ty.text}' in the value of a call to '{method}'"
  | .notAssignable target =>
    s!"malformed instruction: '{target.describe}' is not an assignable target"
  | .unusedResult method =>
    s!"malformed instruction: result of call to '{method}' is neither assigned nor discarded"
  | .notDiscardable instr => s!"malformed instruction: cannot discard '{instr.listing}'"
  | .notStandalone instr => s!"malformed instruction: '{instr.listing}' outside an assignment"
  | .notValue instr => s!"malformed instruction: '{instr.listing}' does not produce a value"
  | .noReturnValue method => s!"malformed instruction: method '{method}' returns no value"
  | .mismatchedTarget method =>
    s!"malformed instruction: call to '{method}' has a mismatched target"
  | .unresolved pos name method =>
    s!"at {pos.text}: unresolved symbol '{name}' in method '{method}'"
  | .unknownMethod name => s!"unknown method '{name}'"
  | .noSignature method => s!"missing context: symbol table entry for method '{method}'"
  | .noReceiver callee caller =>
    s!"missing context: receiver for instance method '{callee}' called from static method '{caller}'"

end Fault

end JavaMinus
