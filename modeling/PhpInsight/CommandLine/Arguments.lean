import PhpInsight.CommandLine.Location
import PhpInsight.Diagnostic

namespace PhpInsight.CommandLine

inductive CommandName
  | type | complete | diagnostics
  deriving DecidableEq, Inhabited

namespace CommandName

def display : CommandName → String
  | type => "type"
  | complete => "complete"
  | diagnostics => "diagnostics"

def all : List CommandName := [type, complete, diagnostics]

def ofText? (text : String) : Option CommandName := all.find? fun c ↦ c.display = text

end CommandName

inductive Flag
  | config | projectRoot | «include» | report | severity
  deriving DecidableEq, Inhabited

namespace Flag

def long : Flag → String
  | config => "config"
  | projectRoot => "project-root"
  | «include» => "include"
  | report => "phpstan"
  | severity => "severity"

def short? : Flag → Option Char
  | «include» => some 'I'
  | _ => none

def global : List Flag := [config, projectRoot]

def ofCommand : Option CommandName → List Flag
  | none => global
  | some .diagnostics => global ++ [report, severity]
  | some _ => global ++ [«include»]

end Flag

inductive Operand
  | file | line | column
  deriving DecidableEq, Inhabited

namespace Operand

def display : Operand → String
  | file => "FILE"
  | line => "LINE"
  | column => "COLUMN"

def ofCommand : CommandName → List Operand
  | .diagnostics => [file]
  | _ => [file, line, column]

end Operand

inductive Task
  | type (l : Location)
  | complete (l : Location)
  /-- Without a report to read, it is expected on the standard input. -/
  | diagnostics (file : String) (report : Option String) (severity : Severity)

structure Invocation where
  config : Option String
  projectRoot : Option String
  task : Task

/-- What there is help about: the program, or what stands behind `help`. -/
inductive Topic
  | program
  | command (c : CommandName)
  | help
  deriving DecidableEq, Inhabited

inductive UsageError
  | unknownOption (text : String)
  | unexpectedValue (text : String)
  | missingValue (f : Flag)
  | repeated (f : Flag)
  | invalid (name value : String)
  | unexpected (text : String)
  | missingOperand (o : Operand)
  | unknownCommand (text : String)
  | missingCommand
  deriving DecidableEq

inductive Stop
  | help (t : Topic)
  | version
  | misuse (e : UsageError)

inductive Word
  /-- Two dashes, behind which everything is an operand. -/
  | separator
  | long (name : String) (value : Option String)
  | short (letters : List Char)
  | plain (text : String)

def Word.ofText (text : String) : Word :=
  match text.toList with
  | ['-', '-'] => separator
  | '-' :: '-' :: cs =>
    match Text.splitFirst? (· == '=') cs with
    | some (name, value) => long (String.ofList name) (some (String.ofList value))
    | none => long (String.ofList cs) none
  | '-' :: c :: cs => short (c :: cs)
  | _ => plain text

def number? (text : String) : Option Nat :=
  let digits := match text.toList with
    | '+' :: cs => cs
    | cs => cs
  if digits.isEmpty || !digits.all Char.isDigit then none
  else
    let n := digits.foldl (fun n c ↦ n * 10 + (c.toNat - '0'.toNat)) 0
    if n < UInt64.size then some n else none

def severity? (text : String) : Option Severity :=
  [("error", Severity.error), ("warning", .warning), ("information", .information),
    ("hint", .hint)].lookup text

structure Given where
  config : Option String := none
  projectRoot : Option String := none
  includes : List String := []
  report : Option String := none
  severity : Option Severity := none
  file : Option String := none
  line : Option Nat := none
  column : Option Nat := none

structure Reading where
  program : Given := {}
  command : Option CommandName := none
  given : Given := {}
  operands : List Operand := []
  /-- An option whose value is the next argument. -/
  pending : Option Flag := none
  topic : Option Topic := none
  onlyOperands : Bool := false

namespace Reading

def misuse {α : Type} (e : UsageError) : Except Stop α := .error (.misuse e)

def path (name value : String) : Except Stop String :=
  if value.isEmpty then misuse (.invalid name value) else .ok value

def once {α : Type} (f : Flag) (old : Option α) (a : α) : Except Stop (Option α) :=
  if old.isSome then misuse (.repeated f) else .ok (some a)

def give (g : Given) (f : Flag) (value : String) : Except Stop Given :=
  match f with
  | .config => do return { g with config := ← once f g.config (← path f.long value) }
  | .projectRoot => do return { g with projectRoot := ← once f g.projectRoot (← path f.long value) }
  | .include => do return { g with includes := g.includes ++ [← path f.long value] }
  | .report => do return { g with report := ← once f g.report (← path f.long value) }
  | .severity =>
    match severity? value with
    | some s => do return { g with severity := ← once f g.severity s }
    | none => misuse (.invalid f.long value)

def setOperand (g : Given) (o : Operand) (value : String) : Except Stop Given :=
  match o with
  | .file => do return { g with file := some (← path o.display value) }
  | .line =>
    match number? value with
    | some n => .ok { g with line := some n }
    | none => misuse (.invalid o.display value)
  | .column =>
    match number? value with
    | some n => .ok { g with column := some n }
    | none => misuse (.invalid o.display value)

def operand (r : Reading) (text : String) : Except Stop Reading :=
  match r.operands with
  | [] => misuse (.unexpected text)
  | o :: os => do return { r with given := ← setOperand r.given o text, operands := os }

def flags (r : Reading) : List Flag := Flag.ofCommand r.command

def here (r : Reading) : Topic := (r.command.map Topic.command).getD .program

def option (r : Reading) (f : Flag) (value : Option String) : Except Stop Reading :=
  match value with
  | some v => do return { r with given := ← give r.given f v }
  | none => .ok { r with pending := some f }

def long (r : Reading) (name : String) (value : Option String) : Except Stop Reading :=
  match r.flags.find? fun f ↦ f.long = name with
  | some f => r.option f value
  | none =>
    if name = "help" || name = "version" && r.command.isNone then
      if value.isSome then misuse (.unexpectedValue name)
      else .error (if name = "help" then .help r.here else .version)
    else misuse (.unknownOption ("--" ++ name))

/-- Letters behind a dash. What follows the letter of an option is its value, an equals sign in
front of it aside. -/
def short (r : Reading) : List Char → Except Stop Reading
  | [] => .ok r
  | c :: cs =>
    if c = 'h' then .error (.help r.here)
    else if c = 'V' && r.command.isNone then .error .version
    else match r.flags.find? fun f ↦ f.short? = some c with
      | none => misuse (.unknownOption ("-" ++ String.singleton c))
      | some f =>
        match cs with
        | [] => r.option f none
        | '=' :: value => r.option f (some (String.ofList value))
        | value => r.option f (some (String.ofList value))

def enter (r : Reading) (text : String) : Except Stop Reading :=
  if text = "help" then .ok { r with topic := some .program }
  else match CommandName.ofText? text with
    | some c => .ok {
        program := r.given
        command := some c
        operands := Operand.ofCommand c }
    | none => misuse (.unknownCommand text)

def plain (r : Reading) (text : String) : Except Stop Reading :=
  if r.command.isNone then r.enter text else r.operand text

/-- An argument behind `help` names its topic. -/
def narrow (r : Reading) (t : Topic) (text : String) : Except Stop Reading :=
  if t ≠ .program then misuse (.unknownCommand text)
  else if text = "help" then .ok { r with topic := some .help }
  else match CommandName.ofText? text with
    | some c => .ok { r with topic := some (.command c) }
    | none => misuse (.unknownCommand text)

def step (r : Reading) (text : String) : Except Stop Reading :=
  match r.topic with
  | some t => r.narrow t text
  | none =>
    if r.onlyOperands then r.operand text
    else match r.pending, Word.ofText text with
      | some f, .plain value => do
        return { r with given := ← give r.given f value, pending := none }
      | some f, _ => misuse (.missingValue f)
      | none, .separator => .ok { r with onlyOperands := true }
      | none, .long name value => r.long name value
      | none, .short letters => r.short letters
      | none, .plain text => r.plain text

def task (g : Given) : CommandName → Except Stop Task
  | .diagnostics =>
    match g.file with
    | some file => .ok (.diagnostics file g.report (g.severity.getD .error))
    | none => misuse (.missingOperand .file)
  | c =>
    match g.file, g.line, g.column with
    | some file, some line, some column =>
      let l : Location := ⟨file, line, column, g.includes⟩
      .ok (if c = .type then .type l else .complete l)
    | none, _, _ => misuse (.missingOperand .file)
    | _, none, _ => misuse (.missingOperand .line)
    | _, _, none => misuse (.missingOperand .column)

/-- The end of the arguments. Options behind the command win over those before it. -/
def finish (r : Reading) : Except Stop Invocation :=
  match r.topic, r.pending, r.command with
  | some t, _, _ => .error (.help t)
  | none, some f, _ => misuse (.missingValue f)
  | none, none, none => misuse .missingCommand
  | none, none, some c => do
    return {
      config := r.given.config.or r.program.config
      projectRoot := r.given.projectRoot.or r.program.projectRoot
      task := ← task r.given c }

end Reading

/-- Arguments are read one after another. The first that makes no sense, or that asks for help or
the version, ends the reading. -/
def Invocation.ofArguments (args : List String) : Except Stop Invocation := do
  (← args.foldlM Reading.step {}).finish

end PhpInsight.CommandLine
