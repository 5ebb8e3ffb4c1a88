import Causeway.Proofs.Csv.Writing
import Causeway.Replay.Instruction
import Mathlib.Data.List.Forall2

/-!
# Rows by themselves

A row that cannot be read does no harm to another: below a header, each record of a file is read
just as in the file that has no other record, but for the place that a fault names
(`rows_stand_alone`).
-/

namespace Causeway

namespace Csv

variable {head bs : Bytes} {vs : List Bytes}

theorem EndedLine.exists_lineEnd (h : EndedLine bs vs) : ∃ b ∈ bs, isLineEnd b := by
  cases h with
  | intro _ _ he =>
    cases he with
    | feed => exact ⟨0x0A, by simp, rfl⟩
    | back => exact ⟨0x0D, by simp, rfl⟩
    | both => exact ⟨0x0A, by simp, rfl⟩

/-- The mark of the byte order. -/
def mark : Bytes := [0xEF, 0xBB, 0xBF]

theorem skipMark_marked (bs : Bytes) : skipMark (mark ++ bs) = bs := rfl

theorem skipMark_of_unmarked (h : ¬ mark <+: bs) : skipMark bs = bs := by
  unfold skipMark
  split
  · rename_i rest
    exact absurd ⟨rest, rfl⟩ h
  · rfl

/-- What follows a line makes no mark of its beginning. -/
theorem skipMark_append (h : EndedLine (skipMark head) vs) (bs : Bytes) :
    skipMark (head ++ bs) = skipMark head ++ bs := by
  by_cases hmark : mark <+: head
  · obtain ⟨rest, rfl⟩ := hmark
    rw [List.append_assoc, skipMark_marked, skipMark_marked]
  · rw [skipMark_of_unmarked hmark] at h ⊢
    refine skipMark_of_unmarked fun hlonger => ?_
    obtain ⟨b, hb, hend⟩ := h.exists_lineEnd
    rcases List.prefix_or_prefix_of_prefix hlonger (List.prefix_append head bs) with hpre | hpre
    · exact hmark hpre
    · have hno : ∀ b ∈ mark, isLineEnd b = false := by simp [mark, isLineEnd]
      rw [hno b (hpre.subset hb)] at hend
      cases hend

theorem table_flatten {rs : List Bytes} (h : ∀ r ∈ rs, ∃ vs, EndedLine r vs) :
    ∃ rows, List.Forall₂ EndedLine rs rows ∧ Table rs.flatten rows := by
  induction rs with
  | nil => exact ⟨[], .nil, .nil⟩
  | cons r rs ih =>
    obtain ⟨vs, hline⟩ := h r (by simp)
    obtain ⟨rows, hrows, htable⟩ := ih fun r hr => h r (by simp [hr])
    exact ⟨vs :: rows, .cons hline hrows, hline.table htable⟩

end Csv

namespace Instruction

open Csv (EndedLine skipMark)

variable {names : List String} {width : Nat} {r r' : Csv.Record}

/-- A row as it is read, without the place of a fault. -/
def told (x : Except RowFault Instruction) : Except Fault Instruction := x.mapError RowFault.fault

theorem told_ofRecord (h : r.fields = r'.fields) :
    told (ofRecord names width r) = told (ofRecord names width r') := by
  unfold ofRecord texts?
  rw [h]
  dsimp only
  split
  · rfl
  · split
    · rfl
    · split <;> rfl

/-- What is read of some fields below a header of others. -/
def readBelow (head fields : List Bytes) : Except Fault Instruction :=
  told (ofRecord ((texts? ⟨head, 0, 0⟩).getD columns) head.length ⟨fields, 0, 0⟩)

theorem told_ofCsv {head bs : Bytes} {vs : List Bytes} {rows : List (List Bytes)}
    (hhead : EndedLine (skipMark head) vs) (hrows : Csv.Table bs rows) :
    (ofCsv (head ++ bs)).map told = rows.map (readBelow vs) := by
  have hfields : (Csv.records (head ++ bs)).map Csv.Record.fields = vs :: rows := by
    refine Csv.map_fields_records ?_
    rw [Csv.skipMark_append hhead]
    exact hhead.table hrows
  obtain ⟨h, rs, hrecords, hh, hrs⟩ := List.map_eq_cons_iff.mp hfields
  rw [ofCsv, hrecords, ← hh, ← hrs]
  dsimp only
  rw [List.map_map, List.map_map]
  exact List.map_congr_left fun r _ => told_ofRecord rfl

/-- Whatever the other records hold, each is read as it is read alone. -/
theorem rows_stand_alone {head : Bytes} {vs : List Bytes} {rs : List Bytes}
    (hhead : EndedLine (skipMark head) vs) (hrs : ∀ r ∈ rs, ∃ vs, EndedLine r vs) :
    (ofCsv (head ++ rs.flatten)).length = rs.length ∧
      ∀ (i : Nat) (r : Bytes), rs[i]? = some r →
        ∃ x y, (ofCsv (head ++ rs.flatten))[i]? = some x ∧ ofCsv (head ++ r) = [y] ∧
          told x = told y := by
  obtain ⟨rows, hlines, htable⟩ := Csv.table_flatten hrs
  have hall := told_ofCsv hhead htable
  have hlength : (ofCsv (head ++ rs.flatten)).length = rs.length := by
    have := congrArg List.length hall
    rwa [List.length_map, List.length_map, ← hlines.length_eq] at this
  refine ⟨hlength, fun i r hr => ?_⟩
  obtain ⟨fields, hfields, hline⟩ : ∃ fields, rows[i]? = some fields ∧ EndedLine r fields := by
    obtain ⟨hi, rfl⟩ := List.getElem?_eq_some_iff.mp hr
    have hi' : i < rows.length := hlines.length_eq ▸ hi
    exact ⟨rows[i], List.getElem?_eq_getElem hi', hlines.get hi hi'⟩
  have halone := told_ofCsv hhead (hline.table .nil)
  rw [List.append_nil] at halone
  obtain ⟨y, ys, hone, hy, hys⟩ := List.map_eq_cons_iff.mp halone
  obtain rfl := List.map_eq_nil_iff.mp hys
  have hith := congrArg (·[i]?) hall
  simp only [List.getElem?_map, hfields, Option.map_some, Option.map_eq_some_iff] at hith
  obtain ⟨x, hx, hxread⟩ := hith
  exact ⟨x, y, hx, hone, hxread.trans hy.symm⟩

namespace Sample

/-- A header after a mark, its columns in another order, with blanks and with one more. -/
def header : Bytes :=
  Csv.mark ++ Text.encode (Csv.record ([" amount ", "user", "outcome", "note", "kyc_status",
    "rail_account", "\tbrokerage_account", "reference"].map String.toList))

def written (cells : List String) : Bytes := Text.encode (Csv.record (cells.map String.toList))

/-- Five records that are refused, each for a reason of its own, and one over two lines. -/
def records : List Bytes :=
  [written ["5", "not-a-uuid", "completed", "", "approved", "rail-1", "brk-1", "dep-1"],
    written ["0", "6f1c2a9e-7d1b-4c55-9a55-0b1f3c3b8d11", "completed", "", "approved", "rail-1",
      "brk-1", "dep-2"],
    written ["5", "6f1c2a9e-7d1b-4c55-9a55-0b1f3c3b8d11", "settled", "", "approved", "rail-1",
      "brk-1", "dep-3"],
    written ["5", "6f1c2a9e-7d1b-4c55-9a55-0b1f3c3b8d11"],
    [0x35, 0x2C, 0xFF, 0x22, 0x0D, 0x0A],
    written ["5", "6f1c2a9e-7d1b-4c55-9a55-0b1f3c3b8d11", "completed", "two\nlines", "approved",
      "rail-1", "brk-1", "dep-4"]]

theorem endedLine_written (x y : String) (xs : List String) :
    ∃ vs, EndedLine (written (x :: y :: xs)) vs := by
  obtain ⟨t, heq, hline⟩ := Csv.line_encode x.toList ((y :: xs).map String.toList)
  refine ⟨((x :: y :: xs).map String.toList).map Text.encode, ?_⟩
  rw [written, List.map_cons, heq]
  exact .intro hline hline.ne_nil .feed

theorem records_ended : ∀ r ∈ records, ∃ vs, EndedLine r vs := by
  have hraw : ∃ vs, EndedLine [0x35, 0x2C, 0xFF, 0x22, 0x0D, 0x0A] vs := by
    obtain ⟨vs, hline⟩ := Csv.exists_line_of_closes (t := [0x35, 0x2C, 0xFF, 0x22])
      .fieldStart (by decide)
    exact ⟨vs, .intro hline (by simp) .both⟩
  intro r hr
  simp only [records, List.mem_cons, List.not_mem_nil, or_false] at hr
  rcases hr with rfl | rfl | rfl | rfl | rfl | rfl
  · exact endedLine_written _ _ _
  · exact endedLine_written _ _ _
  · exact endedLine_written _ _ _
  · exact endedLine_written _ _ _
  · exact hraw
  · exact endedLine_written _ _ _

theorem refused_rows_do_no_harm :
    (∃ vs, EndedLine (skipMark header) vs) ∧ (∀ r ∈ records, ∃ vs, EndedLine r vs) ∧
      (ofCsv (header ++ records.flatten)).length = 6 ∧
      ∃ x y, (ofCsv (header ++ records.flatten))[5]? = some x ∧
        ofCsv (header ++ records[5]) = [y] ∧ told x = told y := by
  have hheader : ∃ vs, EndedLine (skipMark header) vs := by
    rw [header, Csv.skipMark_marked]
    exact endedLine_written _ _ _
  obtain ⟨vs, hline⟩ := hheader
  obtain ⟨hlength, heach⟩ := rows_stand_alone hline records_ended
  exact ⟨⟨vs, hline⟩, records_ended, hlength, heach 5 _ rfl⟩

end Sample

end Instruction

end Causeway
