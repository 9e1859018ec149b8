/-!
White space of Unicode text, the division of a text into lines, and the layout-free form of a query.
-/
namespace PlanFeedback.Text

/-- The characters with the property White_Space. -/
def isBlank (c : Char) : Bool :=
  let n := c.toNat
  (0x09 ≤ n && n ≤ 0x0D) || n == 0x20 || n == 0x85 || n == 0xA0 || n == 0x1680 ||
    (0x2000 ≤ n && n ≤ 0x200A) || n == 0x2028 || n == 0x2029 || n == 0x202F || n == 0x205F ||
    n == 0x3000

def trimBlanks (s : List Char) : List Char :=
  ((s.dropWhile isBlank).reverse.dropWhile isBlank).reverse

/-- One space for each run of blanks outside apostrophes; `quoted` tells whether an odd number of
apostrophes came before, `pending` whether a run has been read and not yet written. -/
def squeeze (quoted pending : Bool) : List Char → List Char
  | [] => []
  | c :: rest =>
    if !quoted && isBlank c then squeeze quoted true rest
    else
      let tail := c :: squeeze (if c = '\'' then !quoted else quoted) false rest
      if pending then ' ' :: tail else tail

/-- The text without blanks at its ends and with single spaces between, quoted parts kept. -/
def collapse (s : String) : String :=
  String.ofList (squeeze false false (trimBlanks s.toList))

/-- The lines of a text, each with the line feed that ends it; only the last may lack one. -/
def pieces : List Char → List (List Char)
  | [] => []
  | c :: rest =>
    if c = '\n' then [c] :: pieces rest
    else
      match pieces rest with
      | [] => [[c]]
      | piece :: more => (c :: piece) :: more

/-- A line without its ending, which is a line feed or a carriage return and a line feed. -/
def dropEnding (piece : List Char) : List Char :=
  match piece.reverse with
  | '\n' :: '\r' :: rest => rest.reverse
  | '\n' :: rest => rest.reverse
  | _ => piece

/-- The lines of a text without their endings. A carriage return alone ends no line. -/
def lines (s : String) : List String :=
  (pieces s.toList).map fun piece => String.ofList (dropEnding piece)

end PlanFeedback.Text
