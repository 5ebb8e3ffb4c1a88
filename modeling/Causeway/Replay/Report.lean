import Causeway.Csv.Writer
import Causeway.Deposit.Basic

/-!
# The report

The report has a line for each deposit, under a line of column names. Without deposits it is empty.
-/

namespace Causeway.Report

def columns : List String :=
  ["reference", "user", "status", "amount", "destination_amount", "provider_tx_id"]

/-- The fields of a deposit, empty where there is nothing to tell. -/
def row (d : Deposit) : List String :=
  [d.reference, d.user.toText, d.status.name, d.amount.value.toText,
   (d.destinationAmount.map Decimal.toText).getD "", d.transfer.getD ""]

def line (fields : List String) : List Char := Csv.record (fields.map String.toList)

def render : List Deposit → String
  | [] => ""
  | ds => String.ofList (line columns ++ ds.flatMap fun d => line (row d))

end Causeway.Report
