import PlanFeedback.Toml.Token

/-!
Reading TOML text. The parser takes the tokens one by one and keeps the open line, arrays and tables
in braces on a stack.
-/
namespace PlanFeedback.Toml

/-! Keys. -/

inductive KeyPiece where
  | part (name : String)
  | dot

/-- The pieces of a word, `read` being the part before in reverse. -/
def wordPieces (read : List Char) : List Char → List KeyPiece
  | [] => if read = [] then [] else [.part (String.ofList read.reverse)]
  | c :: rest =>
    if c = '.' then
      (if read = [] then [] else [.part (String.ofList read.reverse)]) ++
        .dot :: wordPieces [] rest
    else wordPieces (c :: read) rest

/-- The pieces of a token in a key. A block is no key. -/
def keyPieces? : Token → Option (List KeyPiece)
  | .word chars =>
    if chars.all fun c => isKeyChar c || c == '.' then some (wordPieces [] chars) else none
  | .quoted false text => some [.part text]
  | _ => none

/-- Parts with a dot between each two. -/
def path? : List KeyPiece → Option (List String)
  | [.part name] => some [name]
  | .part name :: .dot :: rest => (path? rest).map (name :: ·)
  | _ => none

/-- Keys have at most this many parts; arrays and tables in braces nest at most this deep. -/
def depthLimit : Nat := 80

def keyPath? (tokens : List Token) : Option (List String) := do
  let path ← path? (← tokens.mapM keyPieces?).flatten
  if path.length ≤ depthLimit then some path else none

/-! Values and lines. -/

/-- What waits for a value: the line of a key, or what is open around the value. Items in reverse. -/
inductive Frame where
  | line (path : List String)
  | array (items : List Value)
  | braces (entries : Entries) (path : List String)

inductive KeyPlace where
  | line
  | header (isRow : Bool)
  | braces (entries : Entries) (stack : List Frame)

inductive State where
  /-- At the start of a line. -/
  | line
  /-- After the first bracket of a header. -/
  | header
  /-- Inside a key; its tokens in reverse. -/
  | key (place : KeyPlace) (read : List Token)
  /-- After a key in braces, on a later line: the equals sign comes next. -/
  | equals (entries : Entries) (path : List String) (stack : List Frame)
  /-- After the first of two closing brackets. -/
  | closing (path : List String)
  /-- A value comes next. -/
  | value (stack : List Frame)
  /-- An item of the innermost array comes next, or its end. -/
  | item (items : List Value) (stack : List Frame)
  /-- An entry of the innermost table comes next, or its end. -/
  | entry (entries : Entries) (stack : List Frame)
  /-- A value has been read. -/
  | complete (v : Value) (stack : List Frame)
  /-- A header has been read. -/
  | lineEnd

/-- A container may be opened inside what is open; the line itself does not count. -/
def mayOpen (stack : List Frame) : Bool := stack.length ≤ depthLimit

def valueStep? (stack : List Frame) : Token → Option State
  | .word chars => (scalar? chars).map fun v => .complete v stack
  | .quoted _ text => some (.complete (.string text) stack)
  | .openBracket _ => if mayOpen stack then some (.item [] stack) else none
  | .openBrace => if mayOpen stack then some (.entry [] stack) else none
  | _ => none

def keyStep? (place : KeyPlace) (read : List Token) (token : Token) : Option (State × List Line) :=
  match place, token with
  | .line, .equals => do return (.value [.line (← keyPath? read.reverse)], [])
  | .braces entries stack, .equals => do
    return (.value (.braces entries (← keyPath? read.reverse) :: stack), [])
  | .braces entries stack, .lineEnd => do
    return (.equals entries (← keyPath? read.reverse) stack, [])
  | .header false, .closeBracket _ => do return (.lineEnd, [.table (← keyPath? read.reverse)])
  | .header true, .closeBracket _ => do return (.closing (← keyPath? read.reverse), [])
  | place, .word chars => some (.key place (.word chars :: read), [])
  | place, .quoted isBlock text => some (.key place (.quoted isBlock text :: read), [])
  | _, _ => none

def completeStep? (v : Value) (stack : List Frame) (token : Token) : Option (State × List Line) :=
  match stack, token with
  | [.line path], .lineEnd => some (.line, [.entry path v])
  | .array items :: rest, .comma => some (.item (v :: items) rest, [])
  | .array items :: rest, .closeBracket _ =>
    some (.complete (.array (v :: items).reverse) rest, [])
  | .braces entries path :: rest, .comma => do return (.entry (← assign? v path entries) rest, [])
  | .braces entries path :: rest, .closeBrace => do
    return (.complete (.table .braces (← assign? v path entries)) rest, [])
  | .array _ :: _, .lineEnd => some (.complete v stack, [])
  | .braces _ _ :: _, .lineEnd => some (.complete v stack, [])
  | _, _ => none

/-- One token: the next state and the lines that it completes. -/
def State.step? (state : State) (token : Token) : Option (State × List Line) :=
  match state, token with
  | .line, .lineEnd => some (.line, [])
  | .line, .openBracket _ => some (.header, [])
  | .line, token => keyStep? .line [] token
  | .header, .openBracket true => some (.key (.header true) [], [])
  | .header, token => keyStep? (.header false) [] token
  | .key place read, token => keyStep? place read token
  | .equals entries path stack, .lineEnd => some (.equals entries path stack, [])
  | .equals entries path stack, .equals => some (.value (.braces entries path :: stack), [])
  | .closing path, .closeBracket true => some (.lineEnd, [.row path])
  | .value (.braces entries path :: stack), .lineEnd =>
    some (.value (.braces entries path :: stack), [])
  | .value stack, token => (valueStep? stack token).map fun s => (s, [])
  | .item items stack, .lineEnd => some (.item items stack, [])
  | .item items stack, .closeBracket _ => some (.complete (.array items.reverse) stack, [])
  | .item items stack, token => (valueStep? (.array items :: stack) token).map fun s => (s, [])
  | .entry entries stack, .lineEnd => some (.entry entries stack, [])
  | .entry entries stack, .closeBrace => some (.complete (.table .braces entries) stack, [])
  | .entry entries stack, token => keyStep? (.braces entries stack) [] token
  | .complete v stack, token => completeStep? v stack token
  | .lineEnd, .lineEnd => some (.line, [])
  | _, _ => none

/-- The lines of the rest of a text that is entered in a state. -/
def linesFrom? (state : State) : List Token → Option (List Line)
  | [] =>
    match state with
    | .line => some []
    | .lineEnd => some []
    | .complete v [.line path] => some [.entry path v]
    | _ => none
  | token :: rest => do
    let (next, lines) ← state.step? token
    return lines ++ (← linesFrom? next rest)

def ofText? (s : String) : Option Entries := do
  ofLines? (← linesFrom? .line (← tokens? s))

end PlanFeedback.Toml
