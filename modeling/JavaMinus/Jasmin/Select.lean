/-
Instruction selection. Each instruction of the three-address code becomes a
short run of lines that loads the operands, computes, and stores the result. The
operand stack is empty between instructions, with one exception: an allocation
leaves a second reference to the new object, which the constructor call that
follows drops again.

A call to a method of the class itself takes the descriptor from the method's
declaration; for any other call the operands and the expected result are all
that is known.
-/

import JavaMinus.Jasmin.Line

namespace JavaMinus

namespace Jasmin

/-- What selection looks things up in: the class, and the method whose body is selected. -/
structure Frame where
  code : ClassCode
  method : MethodCode

namespace Frame

/-- The slot of a variable. -/
def slot (frame : Frame) (name : String) : Except Fault UInt16 :=
  match frame.method.registers.get? name with
  | some register => .ok register.slot
  | none => .error (.unresolved .nowhere name frame.method.name)

/-- Push a field, below which its object stands. -/
def readField (frame : Frame) (owner field : String) (ty : Ty) : Except Fault Line :=
  (frame.code.descriptor ty).map (.getField (frame.code.classPath owner) field)

/-- Store into a field, below whose value its object stands. -/
def writeField (frame : Frame) (owner field : String) (ty : Ty) : Except Fault Line :=
  (frame.code.descriptor ty).map (.putField (frame.code.classPath owner) field)

/-- Push an operand. -/
def load (frame : Frame) : Operand → Except Fault (List Line)
  | .literal value _ => .ok [.push value]
  | .var name ty => do return [.loadSlot (.ofTy ty) (← frame.slot name)]
  | .field name ty => do return [.loadThis, ← frame.readField frame.code.name name ty]
  | .this _ => .ok [.loadThis]

/-- Push operands, left to right. -/
def loadAll (frame : Frame) (operands : List Operand) : Except Fault (List Line) :=
  (operands.mapM frame.load).map List.flatten

/-! ### Calls -/

/-- Push what a call is made on, if anything, and tell the class it belongs to. -/
def callTarget (frame : Frame) : CallTarget → Except Fault (List Line × String)
  | .this => .ok ([.loadThis], frame.code.name)
  | .receiver operand => do return (← frame.load operand, operand.ty.base)
  | .ofClass name => .ok ([], name)

/-- The descriptor that a call is made with. -/
def callDescriptor (frame : Frame) (owner : String) (call : Call) :
    Except Fault MethodDescriptor :=
  let byOperands := frame.code.methodDescriptor (call.args.map Operand.ty) call.returnType
  match frame.code.method? call.method with
  | some callee =>
    if owner = frame.code.name then
      frame.code.methodDescriptor (callee.params.map Binding.ty) callee.returnType
    else byOperands
  | none => byOperands

/-- The line of a call. Static calls are made on classes, virtual ones on values. -/
def callLine (frame : Frame) (owner : String) (call : Call) (descriptor : MethodDescriptor) :
    Except Fault Line :=
  let path := frame.code.classPath owner
  match call.kind, call.target with
  | .static, .ofClass _ => .ok (.invokeStatic path call.method descriptor)
  | .virtual, .this | .virtual, .receiver _ => .ok (.invokeVirtual path call.method descriptor)
  | _, _ => .error (.mismatchedTarget call.method)

/-- The lines of a call. A constructor call drops the second reference to the new object. -/
def call (frame : Frame) (call : Call) : Except Fault (List Line) := do
  let (target, owner) ← frame.callTarget call.target
  if call.kind = .constructor then
    return target ++ [.construct (frame.code.classPath owner), .pop]
  else
    let args ← frame.loadAll call.args
    let descriptor ← frame.callDescriptor owner call
    return target ++ args ++ [← frame.callLine owner call descriptor]

/-! ### Instructions -/

/-- Push the value of a right-hand side. -/
def value (frame : Frame) (rhs : Instr) : Except Fault (List Line) :=
  match rhs with
  | .value operand => frame.load operand
  | .arith op left right _ => do return (← frame.loadAll [left, right]) ++ [.arith op]
  | .newObject className => .ok [.newObject (frame.code.classPath className), .dup]
  | .newArray size => do return (← frame.load size) ++ [.newIntArray]
  | .call invocation => frame.call invocation
  | .getField receiver field ty => do
    return (← frame.load receiver) ++ [← frame.readField receiver.ty.base field ty]
  | .loadElement array position => do
    return (← frame.loadAll [array, position]) ++ [.loadElement]
  | .arrayLength array => do return (← frame.load array) ++ [.arrayLength]
  | other => .error (.notValue other)

/-- The lines of a return. -/
def ret (frame : Frame) (result : Option Operand) (ty : Ty) : Except Fault (List Line) :=
  if ty.isVoid then .ok [.retVoid]
  else
    match result with
    | some operand => do return (← frame.load operand) ++ [.ret (.ofTy ty)]
    | none => .error (.noReturnValue frame.method.name)

/-- The lines of an instruction. -/
def select (frame : Frame) (instr : Instr) : Except Fault (List Line) :=
  match instr with
  | .assign dest rhs ty => do
    return (← frame.value rhs) ++ [.storeSlot (.ofTy ty) (← frame.slot dest)]
  | .call invocation =>
    if invocation.returnType.isVoid then frame.call invocation
    else .error (.unusedResult invocation.method)
  | .discard (.call invocation) => do
    let lines ← frame.call invocation
    return if invocation.returnType.isVoid then lines else lines ++ [.pop]
  | .discard other => .error (.notDiscardable other)
  | .putField receiver field ty stored => do
    return (← frame.loadAll [receiver, stored])
      ++ [← frame.writeField receiver.ty.base field ty]
  | .storeElement array position stored => do
    return (← frame.loadAll [array, position, stored]) ++ [.storeElement]
  | .label place => .ok [.label place]
  | .goto target => .ok [.goto target]
  | .branch (.less left right) target => do
    return (← frame.loadAll [left, right]) ++ [.ifLess target]
  | .branch (.nonZero operand) target => do return (← frame.load operand) ++ [.ifNonZero target]
  | .ret result ty => frame.ret result ty
  | other => .error (.notStandalone other)

/-- The lines of the whole body. -/
def lines (frame : Frame) : Except Fault (List Line) :=
  (frame.method.body.mapM frame.select).map List.flatten

end Frame

end Jasmin

end JavaMinus
