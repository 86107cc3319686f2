import PhpInsight.Document
import PhpInsight.Json.Reader

namespace PhpInsight

structure ReportMessage where
  text : String
  /-- Counted from one. -/
  line : Nat

structure Report where
  fileErrors : Nat
  /-- The messages of each file; the last of several lists for one file counts. -/
  files : List (String × List ReportMessage)

namespace Report

open Json

def message? (r : Raw) : Option ReportMessage := do
  match ← r.record? ["message", "line"] with
  | [some text, some line] => return ⟨← text.string?, ← line.nat?⟩
  | _ => none

def fileMessages? (r : Raw) : Option (List ReportMessage) := do
  match ← r.record? ["messages"] with
  | [messages] => Raw.fieldOr? [] (fun m ↦ m.list?.bind fun ms ↦ ms.mapM message?) messages
  | _ => none

/-- The numbers that are nearer to the infinity of doubles than to a finite one start here. -/
def overflowBound : Nat := Nat.pow 2 1024 - Nat.pow 2 970

def isOverflow (n : NumberText) : Bool :=
  let shift := n.exponent.natAbs
  if n.mantissa = 0 then false
  else if n.exponent ≤ 0 then
    shift ≤ n.mantissa.log2 && overflowBound * Nat.pow 10 shift ≤ n.mantissa
  else 400 < shift || overflowBound ≤ n.mantissa * Nat.pow 10 shift

mutual

/-- Whether a value that lies in `depth` others can be held as it is: nothing in it lies deeper
than 127 levels, all strings have decodings, and numbers are finite. -/
def isHoldable (depth : Nat) : Raw → Bool
  | .null | .bool _ => true
  | .number n => !isOverflow n
  | .string text => text.isSome
  | .array items => depth < 127 && areHoldable (depth + 1) items
  | .object fields => depth < 127 && areFieldsHoldable (depth + 1) fields

def areHoldable (depth : Nat) : List Raw → Bool
  | [] => true
  | r :: rs => isHoldable depth r && areHoldable depth rs

def areFieldsHoldable (depth : Nat) : List (Option String × Raw) → Bool
  | [] => true
  | (name, r) :: fields => name.isSome && isHoldable depth r && areFieldsHoldable depth fields

end

def files? (r : Raw) : Option (List (String × List ReportMessage)) := do
  guard (isHoldable 1 r)
  match r with
  | .array _ => return []
  | r => (← r.entries?).mapM fun (name, r) ↦ (fileMessages? r).map (name, ·)

def totals? (r : Raw) : Option Nat := do
  match ← r.record? ["file_errors"] with
  | [some errors] => errors.nat?
  | _ => none

def ofRaw? (r : Raw) : Option Report := do
  match ← r.record? ["totals", "files"] with
  | [some totals, files] => return ⟨← totals? totals, ← Raw.fieldOr? [] files? files⟩
  | _ => none

def ofJson? (output : String) : Option Report := (Raw.read? output.toList).bind ofRaw?

def insertFile (name : String) (messages : List ReportMessage) :
    List (String × List ReportMessage) → List (String × List ReportMessage)
  | [] => [(name, messages)]
  | f :: fs =>
    if name < f.1 then (name, messages) :: f :: fs
    else if name = f.1 then (name, messages) :: fs
    else f :: insertFile name messages fs

def messages (r : Report) : List ReportMessage :=
  (r.files.foldl (fun fs f ↦ insertFile f.1 f.2 fs) []).flatMap Prod.snd

end Report

inductive Severity
  | error | warning | information | hint
  deriving DecidableEq, Inhabited

def Severity.code : Severity → Nat
  | error => 1
  | warning => 2
  | information => 3
  | hint => 4

/-- A place in a document as the protocol counts it: from zero, in 32 bits. -/
structure Position where
  line : UInt32
  character : UInt32

/-- A message of a report, which marks the text of its line. -/
structure Diagnostic where
  start : Position
  stop : Position
  severity : Severity
  message : String

namespace Diagnostic

def code : Nat := 500

def source : String := "PHPStan"

/-- A line that is blank or does not exist is marked at its start. -/
def ofMessage (d : Document) (severity : Severity) (m : ReportMessage) : Diagnostic :=
  let line := m.line - 1
  let (start, stop) := (d.columns? line).getD (0, 0)
  ⟨⟨line.toUInt32, start.toUInt32⟩, ⟨line.toUInt32, stop.toUInt32⟩, severity, m.text⟩

/-- The diagnostics of a report; a report that cannot be read has none. -/
def ofReport (d : Document) (output : String) (severity : Severity) : List Diagnostic :=
  match Report.ofJson? output with
  | none => []
  | some r => if r.fileErrors = 0 then [] else r.messages.map (ofMessage d severity)

end Diagnostic

end PhpInsight
