/-!
# Blank characters, trimming and case

`trim` takes the characters with the Unicode property White_Space off both ends of a text;
`asciiLower` folds the letters A to Z and leaves every other character alone.
-/

namespace Causeway.Text

/-- The characters with the Unicode property White_Space. -/
def isBlank (c : Char) : Bool :=
  let n := c.toNat
  (0x09 ≤ n && n ≤ 0x0D) || n = 0x20 || n = 0x85 || n = 0xA0 || n = 0x1680
    || (0x2000 ≤ n && n ≤ 0x200A) || n = 0x2028 || n = 0x2029 || n = 0x202F || n = 0x205F
    || n = 0x3000

def trimStart (cs : List Char) : List Char := cs.dropWhile isBlank

def trimEnd (cs : List Char) : List Char := (cs.reverse.dropWhile isBlank).reverse

def trimChars (cs : List Char) : List Char := trimEnd (trimStart cs)

def trim (s : String) : String := String.ofList (trimChars s.toList)

/-- A text of blanks only is as good as empty. -/
def isBlankText (s : String) : Bool := s.toList.all isBlank

/-- Letters outside A to Z keep their case. -/
def asciiLower (s : String) : String := String.ofList (s.toList.map Char.toLower)

def equalIgnoringAsciiCase (s t : String) : Bool := asciiLower s == asciiLower t

end Causeway.Text
