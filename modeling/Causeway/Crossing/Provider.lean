import Causeway.Program.Attempt
import Causeway.Rail.Terms

/-!
# The conversion provider

Conversions are ordered as transfers, and their state is looked up in the rail's history, page by
page and newest first, since the rail has no look-up by id.
-/

namespace Causeway.Provider

def createTransfer (o : Rail.Order) : Attempt Rail.Transfer := do
  Attempt.receive Failure.ofApiError (← Program.request (.createTransfer o))

def listTransfers (limit offset : Nat) : Attempt (List Rail.Transfer) := do
  Attempt.receive Failure.ofApiError (← Program.request (.listTransfers limit offset))

def convert (p : ProviderSettings) (r : Conversion.Request) :
    Attempt Conversion.Response := do
  Attempt.ofExcept (p.validate r)
  let t ← createTransfer (p.order r)
  pure (t.response r.direction)

/-- Looks through the history from an offset on. New transfers push older ones to higher offsets,
so none is skipped. -/
def searchFrom (pageSize : Nat) (transfer : String) :
    (pages offset : Nat) → Attempt Conversion.Response
  | 0, _ => throw (.failure (.notFound .providerTransaction transfer))
  | pages + 1, offset => do
    let page ← listTransfers pageSize offset
    match page.find? (·.id = transfer) with
    | some t => pure (t.response (t.direction .stablecoinToFiat))
    | none =>
      if page.length < pageSize then throw (.failure (.notFound .providerTransaction transfer))
      else searchFrom pageSize transfer pages (offset + page.length)

/-- The state of a conversion; offsets have 64 bits, and so have the pages. -/
def status (p : ProviderSettings) (transfer : String) : Attempt Conversion.Response :=
  searchFrom p.listPageSize transfer (twoTo 64) 0

/-- The rail cannot call a transfer back. -/
def cancel (p : ProviderSettings) : Except Failure Unit :=
  .error (.provider false (.cancellationUnsupported p.name))

end Causeway.Provider
