import Causeway.Decimal.Text
import Causeway.Failure
import Causeway.Instant.Text
import Causeway.Json.Decode

/-!
# Scalars in JSON

Decimals, instants and identifiers are written as text, and named values by their names. A decimal
may also be read from a number: a whole one as it is, a double by its shortest decimal.
-/

namespace Causeway

open Json (Tree)

def Decimal.toJson (x : Decimal) : Json := .string x.toText

def Decimal.ofTree? : Tree → Option Decimal
  | .string s => s.bind ofText?
  | .number (some (.whole n)) => ofInt? n
  | .number (some (.real x)) => ofPlain? (Binary64.positional x)
  | _ => none

def Amount.toJson (a : Amount) : Json := a.value.toJson

def Amount.ofTree? (t : Tree) : Option Amount := (Decimal.ofTree? t).bind Amount.ofDecimal?

def Instant.toJson (t : Instant) : Json := .string t.toText

def Instant.ofTree? (t : Tree) : Option Instant := t.text?.bind ofText?

def Uuid.toJson (u : Uuid) : Json := .string u.toText

def Uuid.ofTree? (t : Tree) : Option Uuid := t.text?.bind ofText?

def Json.ofText : Option String → Json := .ofOption .string

def Json.ofDecimal : Option Decimal → Json := .ofOption Decimal.toJson

def Json.ofInstant : Option Instant → Json := .ofOption Instant.toJson

/-! ## Named values -/

def Quota.Tier.ofTree? : Tree → Option Quota.Tier :=
  Tree.choice? [("unverified", .unverified), ("basic", .basic), ("advanced", .advanced)]

def Quota.Flow.ofTree? : Tree → Option Quota.Flow :=
  Tree.choice? [("deposit", .deposit), ("withdrawal", .withdrawal)]

def Quota.Period.ofTree? : Tree → Option Quota.Period :=
  Tree.choice? [("daily", .daily), ("monthly", .monthly)]

def Conversion.Direction.ofTree? : Tree → Option Conversion.Direction :=
  Tree.choice?
    [("stablecoin_to_fiat", .stablecoinToFiat), ("fiat_to_stablecoin", .fiatToStablecoin)]

def Conversion.Status.ofTree? : Tree → Option Conversion.Status :=
  Tree.choice?
    [("pending", .pending), ("processing", .processing), ("completed", .completed),
     ("failed", .failed)]

def Deposit.Status.ofTree? : Tree → Option Deposit.Status :=
  Tree.choice?
    [("created", .created), ("rail_initiated", .railInitiated), ("rail_completed", .railCompleted),
     ("broker_funded", .brokerFunded), ("failed", .failed)]

def Rail.State.ofTree? (t : Tree) : Option Rail.State := t.name?.map ofName

end Causeway
