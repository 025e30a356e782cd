/-
A build session: one program with its options, and what was made of it so far.
The report, the code and the text are each made when they are first asked for
and kept from then on; a stage that fails keeps nothing and is tried again the
next time. Lowering does not wait for a clean report: a program with errors is
assembled all the same, unless the options say otherwise.
-/

import JavaMinus.Build.Options
import JavaMinus.Check.Suite
import JavaMinus.Lowering.Class
import JavaMinus.Tree.Reader

namespace JavaMinus

/-- Why a build yields nothing. -/
inductive BuildError
  /-- The tree is no program. -/
  | tree (cause : TreeError)
  /-- The compiler could not go on. -/
  | fault (cause : Fault)
  /-- The program has these errors, and the options refuse such programs. -/
  | semantic (errors : List Diagnostic)
deriving Repr, Inhabited

def BuildError.message : BuildError → String
  | .tree cause => cause.message
  | .fault cause => cause.message
  | .semantic errors => s!"{errors.length} semantic error(s)"

/-- A program with its options, and what was made of it so far. -/
structure Session where
  program : Program
  table : ClassTable
  options : Options
  report? : Option Report := none
  code? : Option ClassCode := none
  text? : Option String := none

namespace Session

/-- A session in which nothing was made yet. -/
def start (program : Program) (options : Options) : Session where
  program := program
  table := .ofProgram program
  options := options

/-- A session for the program that a tree stands for. -/
def ofTree (tree : Tree) (options : Options) : Except BuildError Session :=
  match Program.ofTree tree with
  | .ok program => .ok (start program options)
  | .error error => .error (.tree error)

/-- The report of all checks. -/
def analyze (session : Session) : Except BuildError Report × Session :=
  match session.report? with
  | some report => (.ok report, session)
  | none =>
    let checks := Check.standard session.options.thisForbiddenIn
    match Check.runAll checks session.program session.table with
    | .ok report => (.ok report, { session with report? := some report })
    | .error fault => (.error (.fault fault), session)

/-- The code of the class. -/
def lower (session : Session) : Except BuildError ClassCode × Session :=
  match session.code? with
  | some code => (.ok code, session)
  | none =>
    match (session.table.lower session.program {}).1 with
    | .ok code => (.ok code, { session with code? := some code })
    | .error fault => (.error (.fault fault), session)

/-- Refuse a program with errors if the options say so. -/
def admitted (session : Session) : Except BuildError Unit × Session :=
  if session.options.abortOnErrors then
    match session.analyze with
    | (.ok report, next) =>
      (if report.hasErrors then .error (.semantic report.errors) else .ok (), next)
    | (.error error, next) => (.error error, next)
  else (.ok (), session)

/-- Assemble the code of the class. -/
def textOfCode (session : Session) : Except BuildError String × Session :=
  match session.lower with
  | (.ok code, next) =>
    match Jasmin.classText next.options.limits code with
    | .ok text => (.ok text, { next with text? := some text })
    | .error fault => (.error (.fault fault), next)
  | (.error error, next) => (.error error, next)

/-- The text of the class. -/
def assemble (session : Session) : Except BuildError String × Session :=
  match session.text? with
  | some text => (.ok text, session)
  | none =>
    match session.admitted with
    | (.ok (), next) => next.textOfCode
    | (.error error, next) => (.error error, next)

end Session

/-- What a build yields: the report of all checks, and the text of the class. -/
structure Output where
  report : Report
  text : String

/-- Check a program and assemble it. -/
def compile (program : Program) (options : Options) : Except BuildError Output :=
  match (Session.start program options).analyze with
  | (.error error, _) => .error error
  | (.ok report, session) =>
    match session.assemble.1 with
    | .ok text => .ok ⟨report, text⟩
    | .error error => .error error

end JavaMinus
