import PlanFeedback.Pattern.Basic

/-!
The level of a log, as a text of rules with commas between them. A rule is a level for everything, the
name of a part of the program, or a name and its level with an equals sign between them. Behind a slash
stands a pattern that the messages have to match.
-/
namespace PlanFeedback.Config

inductive LevelFault where
  | slashes (text : String)
  | blank (name : String)
  | unknownLevel
  | equalsSigns (rule : String)
  | pattern
  deriving DecidableEq, Repr

namespace LevelFault

def message : LevelFault → String
  | .slashes text => s!"invalid log spec '{text}' (too many '/'s), ignoring it"
  | .blank name => s!"ignoring invalid part in log spec '{name}' (contains a whitespace)"
  | .unknownLevel => "Invalid level filter"
  | .equalsSigns rule => s!"invalid part in log spec '{rule}', ignoring it"
  | .pattern => "invalid regex filter - regex parse error:"

end LevelFault

/-- The names of the levels, in either case. -/
def levelNames : List String := ["off", "error", "warn", "info", "debug", "trace"]

def trimmed (s : String) : String := String.ofList (Text.trimBlanks s.toList)

/-- The fault of a rule. A name may lack its level behind the equals sign. -/
def ruleFault? (rule : String) : Option LevelFault :=
  match (rule.splitOn "=").map trimmed with
  | name :: levels =>
    if 1 < levels.length then some (.equalsSigns rule)
    else if name.toList.any Text.isBlank then some (.blank name)
    else if levels.all fun level => level = "" || levelNames.contains level.toLower then none
    else some .unknownLevel
  | [] => none

def levelFaults (text : String) : List LevelFault :=
  match text.splitOn "/" with
  | rules :: patterns =>
    if 1 < patterns.length then [.slashes text]
    else
      ((rules.splitOn ",").filterMap fun rule => ruleFault? (trimmed rule)) ++
        (patterns.filter fun s => !Pattern.isWellFormed s).map fun _ => .pattern
  | [] => []

end PlanFeedback.Config
