/-!
Identifiers in directives: a name is written plainly if it is a lower-case word and no keyword, and
between double quotes otherwise.
-/
namespace PlanFeedback.Plan

/-- The keywords that are no plain identifiers, in increasing order. -/
def quotedKeywords : List String :=
  ["all", "analyse", "analyze", "and", "any", "array", "as", "asc", "asymmetric",
    "authorization", "between", "bigint", "binary", "bit", "boolean", "both", "case", "cast",
    "char", "character", "check", "coalesce", "collate", "collation", "column", "concurrently",
    "constraint", "create", "cross", "current_catalog", "current_date", "current_role",
    "current_schema", "current_time", "current_timestamp", "current_user", "dec", "decimal",
    "default", "deferrable", "desc", "distinct", "do", "else", "end", "except", "exists",
    "extract", "false", "fetch", "float", "for", "foreign", "freeze", "from", "full", "grant",
    "greatest", "group", "grouping", "having", "ilike", "in", "initially", "inner", "inout",
    "int", "integer", "intersect", "interval", "into", "is", "isnull", "join", "lateral",
    "leading", "least", "left", "like", "limit", "localtime", "localtimestamp", "national",
    "natural", "nchar", "none", "not", "notnull", "null", "nullif", "numeric", "offset", "on",
    "only", "or", "order", "out", "outer", "overlaps", "overlay", "placing", "position",
    "precision", "primary", "real", "references", "returning", "right", "row", "select",
    "session_user", "setof", "similar", "smallint", "some", "substring", "symmetric", "table",
    "tablesample", "then", "time", "timestamp", "to", "trailing", "treat", "trim", "true",
    "union", "unique", "user", "using", "values", "varchar", "variadic", "verbose", "when",
    "where", "window", "with"]

/-- Whether an increasing table holds a word. The half of the table where the word would stand is
searched, until a single word is left. -/
def holdsWord (word : String) (table : List String) : Bool :=
  match h : table.drop (table.length / 2) with
  | [] => false
  | middle :: above =>
    if table.length ≤ 1 then middle == word
    else if word < middle then holdsWord word (table.take (table.length / 2))
    else holdsWord word (middle :: above)
termination_by table.length
decreasing_by
  · simp only [List.length_take]
    omega
  · rw [← h, List.length_drop]
    omega

def isPlainStart (c : Char) : Bool := c.isLower || c == '_'

def isPlainChar (c : Char) : Bool := isPlainStart c || c.isDigit || c == '$'

/-- Lower-case ASCII letters, digits, underscores and dollar signs, the first a letter or an
underscore. -/
def isPlainWord : List Char → Bool
  | [] => false
  | c :: rest => isPlainStart c && rest.all isPlainChar

def doubleQuotes : List Char → List Char
  | [] => []
  | c :: rest => if c = '"' then '"' :: '"' :: doubleQuotes rest else c :: doubleQuotes rest

/-- The identifier as a directive writes it. -/
def quoteIdentifier (name : String) : String :=
  if isPlainWord name.toList ∧ !holdsWord name quotedKeywords then name
  else String.ofList ('"' :: doubleQuotes name.toList ++ ['"'])

end PlanFeedback.Plan
