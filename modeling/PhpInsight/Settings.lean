import PhpInsight.Json.Reader

namespace PhpInsight

inductive LogLevel
  | info
  | debug
  deriving DecidableEq, Inhabited

def LogLevel.display : LogLevel → String
  | info => "info"
  | debug => "debug"

structure LogSettings where
  enabled : Bool := false
  path : Option String := none
  level : LogLevel := .info
  deriving DecidableEq

structure Settings where
  diagnosticsEnabled : Bool := true
  /-- Shorter names are not looked up in the tags index. -/
  keywordLength : Nat := 3
  log : LogSettings := {}
  /-- Where the tags index lies. -/
  projectRoot : Option String := none
  deriving DecidableEq

namespace Settings

open Json

def levelOfName? (name : String) : Option LogLevel :=
  [LogLevel.info, .debug].find? fun l ↦ l.display = name

/-- A level is its name, or an object with `null` under its name. -/
def level? : Raw → Option LogLevel
  | .object [(some name, .null)] => levelOfName? name
  | r => r.string?.bind levelOfName?

def diagnostics? (r : Raw) : Option Bool := do
  match ← r.record? ["enabled"] with
  | [enabled] => Raw.fieldOr? true Raw.bool? enabled
  | _ => none

def completion? (r : Raw) : Option Nat := do
  match ← r.record? ["keyword_length"] with
  | [length] => Raw.fieldOr? 3 Raw.nat? length
  | _ => none

def tags? (r : Raw) : Option Nat := do
  match ← r.record? ["completion"] with
  | [completion] => Raw.fieldOr? 3 completion? completion
  | _ => none

def log? (r : Raw) : Option LogSettings := do
  match ← r.record? ["enabled", "path", "level"] with
  | [enabled, path, level] =>
    return {
      enabled := ← Raw.fieldOr? false Raw.bool? enabled
      path := ← Raw.fieldOr? none (Raw.optional? Raw.string?) path
      level := ← Raw.fieldOr? .info level? level }
  | _ => none

def ofRaw? (r : Raw) : Option Settings := do
  match ← r.record? ["diagnostics", "ctags", "log", "project_root"] with
  | [diagnostics, tags, log, root] =>
    return {
      diagnosticsEnabled := ← Raw.fieldOr? true diagnostics? diagnostics
      keywordLength := ← Raw.fieldOr? 3 tags? tags
      log := ← Raw.fieldOr? {} log? log
      projectRoot := ← Raw.fieldOr? none (Raw.optional? Raw.string?) root }
  | _ => none

def ofJson? (text : String) : Option Settings := (Raw.read? text.toList).bind ofRaw?

end Settings

end PhpInsight
