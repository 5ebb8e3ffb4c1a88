/-!
# Writing CSV

A field with a comma, a quote or a line end is quoted, and quotes inside it are doubled. A record
ends with a line feed.
-/

namespace Causeway.Csv

def needsQuotes (cs : List Char) : Bool :=
  cs.any fun c => c == ',' || c == '"' || c == '\r' || c == '\n'

def doubleQuotes : List Char → List Char
  | [] => []
  | c :: cs => if c = '"' then '"' :: '"' :: doubleQuotes cs else c :: doubleQuotes cs

def field (cs : List Char) : List Char :=
  if needsQuotes cs then '"' :: doubleQuotes cs ++ ['"'] else cs

def record : List (List Char) → List Char
  | [] => ['\n']
  | [f] => field f ++ ['\n']
  | f :: fs => field f ++ ',' :: record fs

end Causeway.Csv
