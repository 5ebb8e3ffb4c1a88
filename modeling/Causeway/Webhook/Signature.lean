import Causeway.Digest.Hmac
import Causeway.Failure
import Causeway.Text.Hex

/-!
# Signatures

A sender signs the raw body of a delivery with a shared secret. The signature is the keyed digest in
base 16; blanks around it and the case of its letters do not matter.
-/

namespace Causeway.Webhook

def checkSecret (secret : String) : Except Failure Unit :=
  if secret = "" then .error (.invalid .noSecret) else .ok ()

def sign (secret : String) (body : Bytes) : String :=
  String.ofList (Hex.encode (Digest.hmac (Text.toBytes secret) body))

def verify (secret : String) (body : Bytes) (signature : String) : Except Failure Unit :=
  if Hex.decode? (Text.trimChars signature.toList) = some (Digest.hmac (Text.toBytes secret) body)
  then .ok () else .error .badSignature

end Causeway.Webhook
