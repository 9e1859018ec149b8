import PlanFeedback.Command.Request

/-!
The texts of help: what a command does, how it is called, and its options in columns.
-/
namespace PlanFeedback.Command

def Topic.about : Topic → String
  | .feedback => "Feed one completed execution (JSON) into the feedback loop"
  | .fingerprint => "Print the normalized text and fingerprint of a query"
  | .hints => "Show the active row hints for a normalized query and client"
  | .history => "List recorded plan history"

def helpAbout : String := "Print this message or the help of the given subcommand(s)"

/-- Rows of two columns, the second aligned two blanks behind the longest of the first. -/
def columns (rows : List (String × String)) : String :=
  let width := (rows.map fun row => row.1.length).foldl max 0
  String.join (rows.map fun row =>
    "  " ++ row.1 ++ String.ofList (List.replicate (width + 2 - row.1.length) ' ') ++ row.2 ++ "\n")

def Setting.longText (s : Setting) : String :=
  "--" ++ s.name ++ " <" ++ s.name.toUpper ++ ">"

def Setting.row (s : Setting) : String × String :=
  ((match s.letter? with
    | some letter => "-" ++ String.singleton letter ++ ", "
    | none => "    ") ++ s.longText,
   match s.default? with
    | some value => "[default: " ++ (if value = "" then "\"\"" else value) ++ "]"
    | none => "")

def helpRow : String × String := ("-h, --help", "Print help")

/-- How a command is called: required options are spelt out, others are only hinted at. -/
def Topic.usage (t : Topic) : String :=
  let isOptional := t.settings.any fun s => !s.isRequired
  let required := t.settings.filter fun s => s.isRequired
  "Usage: plan-advisor " ++ t.name ++ (if isOptional then " [OPTIONS]" else "") ++
    String.join (required.map fun s => " " ++ s.longText) ++ "\n"

def Topic.help (t : Topic) : String :=
  t.about ++ "\n\n" ++ t.usage ++ "\nOptions:\n" ++
    columns (t.settings.map Setting.row ++ [helpRow])

def overview : String :=
  "Usage: plan-advisor <COMMAND>\n\nCommands:\n" ++
    columns (Topic.all.map (fun t => (t.name, t.about)) ++ [("help", helpAbout)]) ++
    "\nOptions:\n" ++ columns [helpRow, ("-V, --version", "Print version")]

def helpOnHelp : String :=
  helpAbout ++ "\n\nUsage: plan-advisor help [COMMAND]...\n\nArguments:\n" ++
    columns [("[COMMAND]...", "Print help for the subcommand(s)")]

def versionText : String := "plan_advisor 0.1.0\n"

end PlanFeedback.Command
