import PhpInsight.CommandLine.Arguments
import PhpInsight.CommandLine.Host
import PhpInsight.CommandLine.Usage
import PhpInsight.Engine
import PhpInsight.Json.Printer
import PhpInsight.Settings

namespace PhpInsight.CommandLine

inductive Failure
  | unreadable (path : String)
  | unlistable (path : String)
  | badSettings (path : String)
  | logNotOpened (path : String)
  | pastEnd (l : Location)
  | notParsed (e : SyntaxError)
  | noInput

def Failure.message : Failure → String
  | unreadable path => "unable to read " ++ path
  | unlistable path => "unable to list " ++ path
  | badSettings path => "unable to load configuration from " ++ path
  | logNotOpened path => "unable to open log file " ++ path
  | pastEnd l => "line " ++ toString l.line ++ " is past the end of " ++ l.file
  | notParsed e => e.message
  | noInput => "stream did not contain valid UTF-8"

structure Outcome where
  code : UInt8
  output : String := ""
  errors : String := ""

def textFields (fields : List (String × Option String)) : List (String × Json) :=
  fields.filterMap fun (name, text) ↦ text.map fun t ↦ (name, .string t)

def itemJson (i : Completion.Item) : Json :=
  .object ([("label", .string i.label), ("kind", .number i.kind.code)] ++
    textFields [("detail", i.detail), ("documentation", i.documentation),
      ("insertText", i.insertText)] ++
    (if i.insertText.isSome then [("insertTextFormat", .number 1)] else []))

def positionJson (p : Position) : Json :=
  .object [("line", .number p.line.toNat), ("character", .number p.character.toNat)]

def diagnosticJson (d : Diagnostic) : Json :=
  .object [("range", .object [("start", positionJson d.start), ("end", positionJson d.stop)]),
    ("severity", .number d.severity.code), ("code", .number Diagnostic.code),
    ("source", .string Diagnostic.source), ("message", .string d.message)]

def printed {α : Type} (item : α → Json) (items : List α) : String :=
  (Json.array (items.map item)).display ++ "\n"

inductive Inclusion
  | source (path : String)
  | unlistable (path : String)

mutual

/-- The sources below a path, and the directories that hide theirs, in the order of their paths. -/
def Listing.inclusions (path : String) : Listing → List Inclusion
  | .leaf => if Path.extension? path = some "php" then [.source path] else []
  | .unlistable => [.unlistable path]
  | .directory entries => Listing.inclusionsOfAll path entries

def Listing.inclusionsOfAll (path : String) : List (String × Listing) → List Inclusion
  | [] => []
  | (name, l) :: entries =>
    l.inclusions (Path.join path name) ++ Listing.inclusionsOfAll path entries

end

section

variable {m : Type → Type} [Monad m]

abbrev Command (m : Type → Type) (α : Type) : Type := ExceptT Failure m α

def read (h : Host m) (path : String) : Command m String := do
  match ← h.read? path with
  | some text => return text
  | none => throw (.unreadable path)

def uri (h : Host m) (path : String) : Command m String := do
  return "file://" ++ ((← h.canonical? path).getD path)

def include? (h : Host m) (e : Engine) : Inclusion → Command m Engine
  | .unlistable path => throw (.unlistable path)
  | .source path => do
    let text ← read h path
    match (Engine.parse (← uri h path) text.toList 0).run e with
    | (.ok d, e) => return ((Engine.add d).run e).2
    | (.error _, e) => return e

def engineFor (h : Host m) (l : Location) : Command m Engine :=
  l.includes.foldlM (fun e path ↦ do
    (Listing.inclusions path (← h.listing path)).foldlM (include? h) e) {}

def offsetIn (l : Location) (source : String) : Command m Nat :=
  match l.offset? source.toList with
  | some n => pure n
  | none => throw (.pastEnd l)

def tagsIndex (h : Host m) (s : Settings) : Command m (Option Completion.TagsIndex) := do
  match s.projectRoot with
  | none => return none
  | some root =>
    let path := Path.join root "tags"
    if ← h.isFile path then
      match ← h.read? path with
      | some text => return some ⟨.text text.toList, s.keywordLength⟩
      | none => return some ⟨.unreadable, s.keywordLength⟩
    else return some ⟨.missing, s.keywordLength⟩

def inferType (h : Host m) (l : Location) : Command m String := do
  let source ← read h l.file
  let e ← engineFor h l
  match (Engine.parse (← uri h l.file) source.toList 0).run e with
  | (.error err, _) => throw (.notParsed err)
  | (.ok d, e) =>
    let offset ← offsetIn l source
    let type : StateM Engine InferredType := do
      Engine.add d
      Engine.typeAt d offset
    return (type.run e).1.display ++ "\n"

def complete (h : Host m) (s : Settings) (l : Location) : Command m String := do
  let source ← read h l.file
  let offset ← offsetIn l source
  let e ← engineFor h l
  let e := { e with tags := ← tagsIndex h s }
  let items := (Engine.complete (← uri h l.file) source.toList offset).run e
  return printed itemJson items.1

def diagnose (h : Host m) (file : String) (report : Option String) (severity : Severity) :
    Command m (List Diagnostic) := do
  let source ← read h file
  match Document.parse 0 (← uri h file) source.toList 0 with
  | .error err => throw (.notParsed err)
  | .ok d =>
    let output ← match report with
      | some path => read h path
      | none =>
        match ← h.input? with
        | some text => pure text
        | none => throw .noInput
    return Diagnostic.ofReport d output severity

def perform (h : Host m) (s : Settings) : Task → Command m String
  | .type l => inferType h l
  | .complete l => complete h s l
  | .diagnostics file report severity => do
    let found ← if s.diagnosticsEnabled then diagnose h file report severity else pure []
    return printed diagnosticJson found

def settings (h : Host m) (i : Invocation) : Command m Settings := do
  let s ← match i.config with
    | none => pure {}
    | some path =>
      match (← h.read? path).bind Settings.ofJson? with
      | some s => pure s
      | none => throw (.badSettings path)
  return { s with projectRoot := i.projectRoot.or s.projectRoot }

def openLog (h : Host m) (s : Settings) : Command m Unit := do
  match s.log.path with
  | some path => if s.log.enabled && !(← h.openLog path) then throw (.logNotOpened path)
  | none => return

def invoke (h : Host m) (i : Invocation) : Command m String := do
  let s ← settings h i
  openLog h s
  perform h s i.task

def run (h : Host m) (args : List String) : m Outcome := do
  match Invocation.ofArguments args with
  | .error (.help topic) => return { code := 0, output := topic.display }
  | .error .version => return { code := 0, output := versionText }
  | .error (.misuse e) => return { code := 2, errors := e.message }
  | .ok i =>
    match ← (invoke h i).run with
    | .ok output => return { code := 0, output := output }
    | .error f => return { code := 1, errors := "Error: " ++ f.message ++ "\n" }

end

end PhpInsight.CommandLine
