/-!
# Texts as bytes

A text travels as its UTF-8 bytes; `ofBytes?` reads bytes back and refuses what is not UTF-8.
-/

namespace Causeway

abbrev Bytes := List UInt8

namespace Text

def toBytes (s : String) : Bytes := s.toByteArray.data.toList

def ofBytes? (bs : Bytes) : Option String := String.fromUTF8? ⟨bs.toArray⟩

theorem ofBytes?_toBytes (s : String) : ofBytes? (toBytes s) = some s := by
  have h : (⟨(toBytes s).toArray⟩ : ByteArray) = s.toByteArray := rfl
  rw [ofBytes?, h, String.fromUTF8?, dif_pos s.isValidUTF8]
  rfl

end Text

end Causeway
