/-!
The commands and their arguments. Options stand behind the name of the command. An option takes the
argument after it, unless that starts with a hyphen, or what is attached to it.
-/
namespace PlanFeedback

inductive Command where
  | feedback (config input : String)
  | fingerprint (query : String)
  | hints (config query client : String)
  | history (config : String) (fingerprint? : Option String)
  deriving DecidableEq, Repr

namespace Command

/-- The commands without their arguments. -/
inductive Topic where
  | feedback
  | fingerprint
  | hints
  | history
  deriving DecidableEq, Repr

namespace Topic

def all : List Topic := [.feedback, .fingerprint, .hints, .history]

def name : Topic → String
  | .feedback => "feedback"
  | .fingerprint => "fingerprint"
  | .hints => "hints"
  | .history => "history"

def ofName? (s : String) : Option Topic := all.find? fun t => t.name == s

end Topic

/-- An option with a value: its letter, its name, and what it is without being given. -/
structure Setting where
  letter? : Option Char
  name : String
  isRequired : Bool := false
  default? : Option String := none
  deriving DecidableEq, Repr

def configSetting : Setting := ⟨some 'c', "config", false, some "config.toml"⟩

def querySetting : Setting := ⟨some 'q', "query", true, none⟩

def Topic.settings : Topic → List Setting
  | .feedback => [configSetting, ⟨some 'i', "input", true, none⟩]
  | .fingerprint => [querySetting]
  | .hints => [configSetting, querySetting, ⟨none, "client", false, some ""⟩]
  | .history => [configSetting, ⟨some 'f', "fingerprint", false, none⟩]

inductive Request where
  | run (c : Command)
  | help (topic? : Option Topic)
  /-- Help on asking for help. -/
  | helpOnHelp
  | version
  deriving DecidableEq, Repr

/-- The values that options are given, or a wish for help. -/
inductive Given where
  | help
  | values (values : List (String × String))
  deriving DecidableEq, Repr

/-- An argument that is no value of the option before it. A lone hyphen is one. -/
def startsOption : List Char → Bool
  | '-' :: _ :: _ => true
  | _ => false

/-- Notes a value. No option is given twice. -/
def note? (values : List (String × String)) (s : Setting) (value : List Char) :
    Option (List (String × String)) :=
  if (values.lookup s.name).isSome then none else some ((s.name, String.ofList value) :: values)

/-- An option by its name, and the value behind an equals sign. -/
def namedSetting? (settings : List Setting) (name : List Char) : Option Setting :=
  settings.find? fun s => s.name.toList == name

def letterSetting? (settings : List Setting) (letter : Char) : Option Setting :=
  settings.find? fun s => s.letter? == some letter

/-- Reads the options behind the name of a command. A wish for help ends the reading. -/
def given? (settings : List Setting) (values : List (String × String)) :
    List (List Char) → Option Given
  | [] => some (.values values)
  | ['-', '-'] :: rest => if rest = [] then some (.values values) else none
  | ('-' :: '-' :: long) :: rest =>
    let name := long.takeWhile (· != '=')
    match long.drop name.length with
    | _ :: value => do
      given? settings (← note? values (← namedSetting? settings name) value) rest
    | [] =>
      if name = "help".toList then some .help
      else
        match rest with
        | [] => none
        | value :: rest => do
          let s ← namedSetting? settings name
          if startsOption value then none
          else given? settings (← note? values s value) rest
  | ('-' :: letter :: attached) :: rest =>
    if letter = 'h' then some .help
    else
      match attached with
      | '=' :: value => do
        given? settings (← note? values (← letterSetting? settings letter) value) rest
      | _ :: _ => do
        given? settings (← note? values (← letterSetting? settings letter) attached) rest
      | [] =>
        match rest with
        | [] => none
        | value :: rest => do
          let s ← letterSetting? settings letter
          if startsOption value then none
          else given? settings (← note? values s value) rest
  | _ => none

/-- The command with the values that its options are given. -/
def Topic.command? (t : Topic) (values : List (String × String)) : Option Command :=
  let get? (name : String) : Option String := values.lookup name
  let config := (get? "config").getD "config.toml"
  match t with
  | .feedback => (get? "input").map (.feedback config)
  | .fingerprint => (get? "query").map .fingerprint
  | .hints => (get? "query").map fun query => .hints config query ((get? "client").getD "")
  | .history => some (.history config (get? "fingerprint"))

def Topic.request? (t : Topic) (arguments : List String) : Option Request := do
  match ← given? t.settings [] (arguments.map String.toList) with
  | .help => return .help (some t)
  | .values values => return .run (← t.command? values)

/-- What arguments ask for, if they are well formed. -/
def Request.ofArguments? : List String → Option Request
  | [] => none
  | "help" :: [] => some (.help none)
  | "help" :: ["help"] => some .helpOnHelp
  | "help" :: [name] => (Topic.ofName? name).map fun t => .help (some t)
  | "--help" :: _ => some (.help none)
  | "--version" :: _ => some .version
  | first :: rest =>
    match first.toList with
    | '-' :: 'h' :: _ => some (.help none)
    | '-' :: 'V' :: _ => some .version
    | _ => (Topic.ofName? first).bind fun t => t.request? rest

end Command

end PlanFeedback
