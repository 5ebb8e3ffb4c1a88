import Causeway.Text.Hex

/-!
# Identifiers of 128 bits

`toText` writes 32 lower-case digits of base 16 in five groups, and `toCompact` the same digits
without groups. `ofText?` reads both forms, the grouped one also in braces or after `urn:uuid:`; all
letters may be of either case.
-/

namespace Causeway

structure Uuid where
  bits : BitVec 128
deriving DecidableEq

namespace Uuid

instance : Inhabited Uuid := ⟨⟨0⟩⟩

def ofNat (n : Nat) : Uuid := ⟨BitVec.ofNat 128 n⟩

def digits (u : Uuid) : List Char := Hex.digits 32 u.bits.toNat

def toCompact (u : Uuid) : String := String.ofList u.digits

def toChars (u : Uuid) : List Char :=
  let ds := u.digits
  ds.take 8 ++ '-' :: (ds.drop 8).take 4 ++ '-' :: (ds.drop 12).take 4
    ++ '-' :: (ds.drop 16).take 4 ++ '-' :: ds.drop 20

def toText (u : Uuid) : String := String.ofList u.toChars

def ofDigits? (cs : List Char) : Option Uuid :=
  if cs.length = 32 then (Hex.ofDigits? cs).map ofNat else none

/-- Reads groups of 8, 4, 4, 4 and 12 digits with a hyphen between them. -/
def ofGroups? (cs : List Char) : Option Uuid :=
  if cs.length = 36 ∧ [8, 13, 18, 23].all (cs[·]? = some '-') then
    ofDigits? (cs.take 8 ++ (cs.drop 9).take 4 ++ (cs.drop 14).take 4 ++ (cs.drop 19).take 4
      ++ cs.drop 24)
  else none

def ofChars? (cs : List Char) : Option Uuid :=
  if cs.length = 32 then ofDigits? cs
  else if cs.length = 38 ∧ cs.head? = some '{' ∧ cs.getLast? = some '}' then
    ofGroups? (cs.drop 1).dropLast
  else if cs.length = 45 ∧ (cs.take 9).map Char.toLower = "urn:uuid:".toList then ofGroups? (cs.drop 9)
  else ofGroups? cs

def ofText? (s : String) : Option Uuid := ofChars? s.toList

end Uuid

end Causeway
