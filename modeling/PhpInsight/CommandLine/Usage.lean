import PhpInsight.CommandLine.Arguments

namespace PhpInsight.CommandLine

def programName : String := "phpls"

def versionText : String := "phpls-cli 0.1.0\n"

def CommandName.about : CommandName → String
  | type => "Print the inferred type of the expression at a position"
  | complete => "Print completion items for the expression ending at a position"
  | diagnostics => "Turn PHPStan JSON output into diagnostics for a file"

namespace Flag

def valueName : Flag → String
  | config => "CONFIG"
  | projectRoot => "PROJECT_ROOT"
  | «include» => "INCLUDES"
  | report => "PHPSTAN"
  | severity => "SEVERITY"

def about : Flag → String
  | config => "JSON configuration file"
  | projectRoot => "Project root holding the `tags` index, overriding the configuration"
  | «include» => "Other files or directories whose classes should be known"
  | report => "File holding PHPStan's JSON output; read from stdin when omitted"
  | severity => "Severity given to every diagnostic: error, warning, information or hint"

def display (f : Flag) : String := "--" ++ f.long ++ " <" ++ f.valueName ++ ">"

end Flag

namespace Operand

def about : Operand → String
  | file => "The PHP file"
  | line => "Line, starting at 1"
  | column => "Column in characters, starting at 1"

end Operand

def table (title : String) (rows : List (String × String)) : List String :=
  if rows.isEmpty then []
  else
    let width := (rows.map fun r ↦ r.1.length).foldl max 0
    let row (r : String × String) : String :=
      "  " ++ r.1 ++ "".pushn ' ' (width - r.1.length + 2) ++ r.2
    ["", title ++ ":"] ++ rows.map row

def flagRow (f : Flag) : String × String :=
  let short := match f.short? with
    | some c => "-" ++ String.singleton c ++ ", "
    | none => "    "
  (short ++ f.display, f.about)

def helpRow : String × String := ("-h, --help", "Print help")

def commandRows : List (String × String) :=
  CommandName.all.map fun c ↦ (c.display, c.about)

def helpAbout : String := "Print this message or the help of the given subcommand(s)"

namespace Topic

def lines : Topic → List String
  | program =>
    ["PHP language intelligence from the command line", "",
      "Usage: " ++ programName ++ " [OPTIONS] <COMMAND>"] ++
    table "Commands" (commandRows ++ [("help", helpAbout)]) ++
    table "Options" (Flag.global.map flagRow ++ [helpRow, ("-V, --version", "Print version")])
  | command c =>
    let operands := Operand.ofCommand c
    [c.about, "",
      "Usage: " ++ " ".intercalate ([programName, c.display, "[OPTIONS]"] ++
        operands.map fun o ↦ "<" ++ o.display ++ ">")] ++
    table "Arguments" (operands.map fun o ↦ ("<" ++ o.display ++ ">", o.about)) ++
    table "Options" ((Flag.ofCommand (some c)).map flagRow ++ [helpRow])
  | help =>
    [helpAbout, "", "Usage: " ++ programName ++ " help [COMMAND]..."]

def display (t : Topic) : String := "\n".intercalate t.lines ++ "\n"

end Topic

namespace UsageError

def cause : UsageError → String
  | unknownOption text => "unexpected option '" ++ text ++ "'"
  | unexpectedValue text => "option '--" ++ text ++ "' takes no value"
  | missingValue f => "a value is required for '" ++ f.display ++ "' but none was supplied"
  | repeated f => "the argument '" ++ f.display ++ "' cannot be used multiple times"
  | invalid name value => "invalid value '" ++ value ++ "' for '" ++ name ++ "'"
  | unexpected text => "unexpected argument '" ++ text ++ "' found"
  | missingOperand o => "the argument <" ++ o.display ++ "> was not provided"
  | unknownCommand text => "unrecognized subcommand '" ++ text ++ "'"
  | missingCommand => "a subcommand is required"

def message (e : UsageError) : String :=
  "error: " ++ e.cause ++ "\n\nFor more information, try '--help'.\n"

end UsageError

end PhpInsight.CommandLine
