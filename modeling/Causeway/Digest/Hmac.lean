import Causeway.Digest.Sha256

/-!
# Keyed digests

HMAC over SHA-256: the key, brought to one block, is mixed into an inner and an outer digest.
-/

namespace Causeway.Digest

/-- A key longer than a block is replaced by its digest; a shorter one is filled with zeros. -/
def blockKey (key : Bytes) : Bytes :=
  let k := if 64 < key.length then sha256 key else key
  k ++ List.replicate (64 - k.length) 0

def hmac (key message : Bytes) : Bytes :=
  let k := blockKey key
  sha256 (k.map (· ^^^ 0x5c) ++ sha256 (k.map (· ^^^ 0x36) ++ message))

theorem length_hmac (key message : Bytes) : (hmac key message).length = 32 := length_sha256 _

end Causeway.Digest
