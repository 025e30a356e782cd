import JavaMinus.Position
import JavaMinus.Ty
import JavaMinus.Diagnostic
import JavaMinus.Text.Blank
import JavaMinus.Text.Fields
import JavaMinus.Syntax.Operator
import JavaMinus.Syntax.Expr
import JavaMinus.Syntax.Stmt
import JavaMinus.Syntax.Program
import JavaMinus.Syntax.Observer
import JavaMinus.Text.Decimal
import JavaMinus.Tree.Basic
import JavaMinus.Tree.Kind
import JavaMinus.Tree.Reader
import JavaMinus.Tree.Writer
import JavaMinus.Code.Instr
import JavaMinus.Code.Registers
import JavaMinus.Code.Class
import JavaMinus.Code.Listing
import JavaMinus.Fault
import JavaMinus.ClassTable
import JavaMinus.Typing
import JavaMinus.Check.Declaration
import JavaMinus.Check.Resolution
import JavaMinus.Check.Argument
import JavaMinus.Check.Storage
import JavaMinus.Check.Operand
import JavaMinus.Check.Receiver
import JavaMinus.Check.Suite
import JavaMinus.Lowering.Basic
import JavaMinus.Lowering.Emission
import JavaMinus.Lowering.Body
import JavaMinus.Lowering.Class
import JavaMinus.Jasmin.Descriptor
import JavaMinus.Jasmin.Line
import JavaMinus.Jasmin.Select
import JavaMinus.Jasmin.Assembler
import JavaMinus.Build.Options
import JavaMinus.Build.Session
import JavaMinus.Proofs.Names
import JavaMinus.Proofs.Semantics.State
import JavaMinus.Proofs.Semantics.Source
import JavaMinus.Proofs.Semantics.Code
import JavaMinus.Proofs.Lowering.Derivation
import JavaMinus.Proofs.Lowering.Freshness
import JavaMinus.Proofs.Lowering.Realization
import JavaMinus.Proofs.Lowering.Preservation
import JavaMinus.Proofs.Registers
import JavaMinus.Proofs.Allocation
import JavaMinus.Proofs.Lowering.Shape
import JavaMinus.Proofs.Semantics.Machine
import JavaMinus.Proofs.Semantics.Renaming
import JavaMinus.Proofs.Jasmin.Selection
import JavaMinus.Proofs.Jasmin.Simulation
import JavaMinus.Proofs.Jasmin.Reading
import JavaMinus.Proofs.Jasmin.Refinement
import JavaMinus.Proofs.Jasmin.Heights
import JavaMinus.Proofs.Lowering.Success
import JavaMinus.Proofs.Lowering.Occurrences
import JavaMinus.Proofs.Lowering.Values
import JavaMinus.Proofs.Check.Clean
import JavaMinus.Proofs.Semantics.Flow
import JavaMinus.Proofs.Lowering.Completion
import JavaMinus.Proofs.Lowering.Types
import JavaMinus.Proofs.Check.Types
import JavaMinus.Proofs.Lowering.Invocations
import JavaMinus.Proofs.Semantics.Calls
import JavaMinus.Proofs.Lowering.Exactness
import JavaMinus.Proofs.Lowering.Calm
import JavaMinus.Proofs.Lowering.Order
import JavaMinus.Proofs.Lowering.Counting
import JavaMinus.Proofs.Lowering.Labels
import JavaMinus.Proofs.Lowering.Expressible
import JavaMinus.Proofs.Jasmin.Totality
import JavaMinus.Proofs.Jasmin.Descriptors
import JavaMinus.Proofs.Jasmin.Signatures
import JavaMinus.Proofs.Tree.Grammar
import JavaMinus.Proofs.Tree.Acceptance
import JavaMinus.Proofs.Lowering.Temporaries
import JavaMinus.Proofs.Lowering.VariableTypes
import JavaMinus.Proofs.Lowering.Definedness
import JavaMinus.Proofs.Lowering.Detachment
import JavaMinus.Proofs.Jasmin.Loads
import JavaMinus.Proofs.Jasmin.Cells
import JavaMinus.Proofs.Tree.RoundTrip
import JavaMinus.Proofs.Check.Coverage
import JavaMinus.Proofs.Check.Duplicates
import JavaMinus.Proofs.Build.Caches
import JavaMinus.Proofs.Lowering.OperandTypes
import JavaMinus.Proofs.Check.Arguments
import JavaMinus.Proofs.Lowering.Events
import JavaMinus.Proofs.Parentheses
import JavaMinus.Proofs.Lowering.Renumbering
import JavaMinus.Proofs.Jasmin.Renumbering
import JavaMinus.Proofs.Lowering.Search
import JavaMinus.Proofs.Check.Concatenation
import JavaMinus.Proofs.Imports
import JavaMinus.Proofs.Lowering.Thrift
import JavaMinus.Proofs.Jasmin.Limits
