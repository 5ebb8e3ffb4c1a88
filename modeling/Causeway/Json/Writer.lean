import Causeway.Json.Value
import Causeway.Text.Hex

/-!
# Writing JSON

`Json.render` writes a value without blanks. In strings only quotes, backslashes and control
characters are escaped.
-/

namespace Causeway.Json

def escapeChar (c : Char) : List Char :=
  if c = '"' then ['\\', '"']
  else if c = '\\' then ['\\', '\\']
  else if c = '\x08' then ['\\', 'b']
  else if c = '\t' then ['\\', 't']
  else if c = '\n' then ['\\', 'n']
  else if c = '\x0C' then ['\\', 'f']
  else if c = '\r' then ['\\', 'r']
  else if c.toNat < 0x20 then '\\' :: 'u' :: Hex.digits 4 c.toNat
  else [c]

def quote (s : String) : List Char := '"' :: s.toList.flatMap escapeChar ++ ['"']

def numberText : Number → List Char
  | .whole n => (if n < 0 then ['-'] else []) ++ Nat.toDigits 10 n.natAbs
  | .real x => (Binary64.pretty x).toList

mutual

def renderChars : Json → List Char
  | .null => "null".toList
  | .bool b => (if b then "true" else "false").toList
  | .number n => numberText n
  | .string s => quote s
  | .array js => '[' :: renderElements js
  | .object ms => '\x7b' :: renderMembers ms

/-- The elements with commas between them and the closing bracket. -/
def renderElements : List Json → List Char
  | [] => [']']
  | [j] => renderChars j ++ [']']
  | j :: js => renderChars j ++ ',' :: renderElements js

/-- The members with commas between them and the closing brace. -/
def renderMembers : List (String × Json) → List Char
  | [] => ['\x7d']
  | [(k, j)] => quote k ++ ':' :: renderChars j ++ ['\x7d']
  | (k, j) :: ms => quote k ++ ':' :: renderChars j ++ ',' :: renderMembers ms

end

def render (j : Json) : String := String.ofList (renderChars j)

end Causeway.Json
