import Causeway.Proofs.Csv.Writing
import Causeway.Replay.Report

/-!
# Reading a report back

By the grammar of CSV a report has one table: the names of the columns, and under them a row for
each deposit in the order given, with the texts of its fields to the character. `Shows` says so of a
text and the lines that it is to have, and `shows_render` of the text of a report, also of the empty
one.
-/

namespace Causeway.Report

open Csv (Line)
open Text (encode toBytes)

variable {d : Deposit} {ds : List Deposit} {rows : List (List Bytes)}

/-! ## Lines -/

theorem encode_line (x y : String) (xs : List String) :
    ∃ t, encode (line (x :: y :: xs)) = t ++ [0x0A] ∧ t ≠ [] ∧
      Line t ((x :: y :: xs).map toBytes) := by
  obtain ⟨t, heq, hline⟩ := Csv.line_encode x.toList ((y :: xs).map String.toList)
  refine ⟨t, heq, hline.ne_nil, ?_⟩
  have hbytes : ((x :: y :: xs).map String.toList).map encode = (x :: y :: xs).map toBytes := by
    rw [List.map_map]
    exact List.map_congr_left fun s _ => (Text.toBytes_eq_encode s).symm
  exact hbytes ▸ hline

theorem table_line (x y : String) (xs : List String) {ts : Bytes} (h : Csv.Table ts rows) :
    Csv.Table (encode (line (x :: y :: xs)) ++ ts) ((x :: y :: xs).map toBytes :: rows) := by
  obtain ⟨t, heq, hne, hline⟩ := encode_line x y xs
  rw [heq, List.append_assoc]
  exact .cons hline hne rfl h

theorem table_rows (ds : List Deposit) :
    Csv.Table (encode (ds.flatMap fun d => line (row d)))
      ((ds.map row).map (·.map toBytes)) := by
  induction ds with
  | nil => exact .nil
  | cons d ds ih =>
    rw [List.flatMap_cons, Text.encode_append]
    exact table_line _ _ _ ih

/-! ## The whole report -/

/-- The lines under the names of the columns. Where there are none, the names are left out too. -/
def headed : List (List String) → List (List String)
  | [] => []
  | lines =>
    ["reference", "user", "status", "amount", "destination_amount", "provider_tx_id"] :: lines

/-- Nothing but the lines, each cell to the character, is read from the text: not by the grammar of
CSV, and not by the reader. -/
structure Shows (text : String) (lines : List (List String)) : Prop where
  grammar : ∀ read, Csv.Table (toBytes text) read ↔ read = (headed lines).map (·.map toBytes)
  reader : (Csv.records (toBytes text)).map Csv.Record.fields =
    (headed lines).map (·.map toBytes)

theorem table_render (ds : List Deposit) :
    Csv.Table (toBytes (render ds)) ((headed (ds.map row)).map (·.map toBytes)) := by
  cases ds with
  | nil => exact .nil
  | cons d ds =>
      have hrows := table_rows (d :: ds)
      rw [render, Text.toBytes_ofList, Text.encode_append]
      · exact table_line _ _ _ hrows
      · nofun

/-- A report begins with its first column, and so with no mark of the byte order. -/
theorem skipMark_render (ds : List Deposit) :
    Csv.skipMark (toBytes (render ds)) = toBytes (render ds) := by
  cases ds with
  | nil => rfl
  | cons d ds =>
      have hfirst : ∃ bs, toBytes (render (d :: ds)) = 0x72 :: bs := by
        rw [render, Text.toBytes_ofList]
        · exact ⟨_, rfl⟩
        · nofun
      obtain ⟨bs, heq⟩ := hfirst
      rw [heq]
      rfl

theorem shows_render (ds : List Deposit) : Shows (render ds) (ds.map row) := by
  have hread : ∀ {rows}, Csv.Table (toBytes (render ds)) rows →
      (Csv.records (toBytes (render ds))).map Csv.Record.fields = rows := by
    intro rows h
    exact Csv.map_fields_records ((skipMark_render ds).symm ▸ h)
  refine ⟨fun read => ⟨fun h => ?_, ?_⟩, hread (table_render ds)⟩
  · exact (hread h).symm.trans (hread (table_render ds))
  · rintro rfl
    exact table_render ds

/-- Whatever the references and the ids of the provider are made of, nothing but the rows of the
deposits is read from a report. -/
theorem report_reads_back (d : Deposit) (ds : List Deposit) :
    ∃ rows : List (List String),
      rows =
        ["reference", "user", "status", "amount", "destination_amount", "provider_tx_id"] ::
          (d :: ds).map (fun d =>
            [d.reference, d.user.toText, d.status.name, d.amount.value.toText,
              (d.destinationAmount.map Decimal.toText).getD "", d.transfer.getD ""]) ∧
      (∀ read, Csv.Table (toBytes (render (d :: ds))) read ↔ read = rows.map (·.map toBytes)) ∧
      (Csv.records (toBytes (render (d :: ds)))).map Csv.Record.fields =
        rows.map (·.map toBytes) := by
  obtain ⟨hgrammar, hreader⟩ := shows_render (d :: ds)
  exact ⟨_, rfl, hgrammar, hreader⟩

end Causeway.Report
