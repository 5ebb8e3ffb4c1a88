import Causeway.Digest.Sha256
import Causeway.Power
import Causeway.Uuid

/-!
# Identifiers from a seed

A seed yields a supply of identifiers that look random: each holds 122 bits of a digest, around the
marks of version 4.
-/

namespace Causeway.Uuid

/-- The identifier of version 4 that takes its other bits from `n`. -/
def version4 (n : Nat) : Uuid :=
  let high := n / twoTo 80
  let middle := n / twoTo 64 % twoTo 12
  let low := n % twoTo 62
  ofNat (high * twoTo 80 + 4 * twoTo 76 + middle * twoTo 64 + twoTo 63 + low)

/-- Identifier `n` of those that grow from a seed. -/
def ofSeed (seed : Bytes) (n : Nat) : Uuid :=
  let digest := Digest.sha256 (seed ++ Text.toBytes (toString n))
  version4 ((digest.take 16).foldl (fun a b => 256 * a + b.toNat) 0)

end Causeway.Uuid
