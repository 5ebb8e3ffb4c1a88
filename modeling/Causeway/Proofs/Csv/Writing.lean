import Causeway.Csv.Writer
import Causeway.Proofs.Csv.Grammar
import Causeway.Proofs.Text

/-!
# What is written as CSV

A field is written so that the grammar has its text for it, whatever characters it holds: those that
could be taken for the form of the table stand in quotes (`field_encode`). So a record is written as
a line with its fields (`line_encode`).
-/

namespace Causeway

theorem Text.eq_of_mem_utf8EncodeChar {c d : Char} (hd : d.toNat ≤ 0x7F)
    (h : UInt8.ofNat d.toNat ∈ String.utf8EncodeChar c) : c = d := by
  have hbyte : (UInt8.ofNat d.toNat).toNat = d.toNat := by
    rw [UInt8.toNat_ofNat']
    omega
  by_cases hc : c.toNat ≤ 0x7F
  · rw [utf8EncodeChar_of_le hc, List.mem_singleton] at h
    have h := congrArg UInt8.toNat h
    rw [hbyte, UInt8.toNat_ofNat', Nat.mod_eq_of_lt (by omega)] at h
    exact Char.toNat_inj.mp h.symm
  · have := le_of_mem_utf8EncodeChar (Nat.not_le.mp hc) h
    omega

namespace Csv

open Text (encode)

variable {c : Char} {cs : List Char}

/-! ## Fields -/

theorem ordinary_of_mem (h : needsQuotes [c] = false) {b : UInt8}
    (hb : b ∈ String.utf8EncodeChar c) : Ordinary b ∧ b ≠ 0x22 := by
  simp only [needsQuotes, List.any_cons, List.any_nil, Bool.or_false, Bool.or_eq_false_iff,
    beq_eq_false_iff_ne] at h
  obtain ⟨⟨⟨hcomma, hquote⟩, hreturn⟩, hfeed⟩ := h
  refine ⟨⟨?_, ?_⟩, ?_⟩
  · rintro rfl
    exact hcomma (Text.eq_of_mem_utf8EncodeChar (d := ',') (by decide) hb)
  · rw [isLineEnd, Bool.or_eq_false_iff, beq_eq_false_iff_ne, beq_eq_false_iff_ne]
    constructor
    · rintro rfl
      exact hfeed (Text.eq_of_mem_utf8EncodeChar (d := '\n') (by decide) hb)
    · rintro rfl
      exact hreturn (Text.eq_of_mem_utf8EncodeChar (d := '\r') (by decide) hb)
  · rintro rfl
    exact hquote (Text.eq_of_mem_utf8EncodeChar (d := '"') (by decide) hb)

theorem needsQuotes_cons :
    needsQuotes (c :: cs) = (needsQuotes [c] || needsQuotes cs) := by
  simp [needsQuotes]

theorem ordinary_encode (h : needsQuotes cs = false) : ∀ b ∈ encode cs, Ordinary b ∧ b ≠ 0x22 := by
  induction cs with
  | nil => simp
  | cons c cs ih =>
    rw [needsQuotes_cons, Bool.or_eq_false_iff] at h
    intro b hb
    rw [Text.encode_cons, List.mem_append] at hb
    cases hb with
    | inl hb => exact ordinary_of_mem h.1 hb
    | inr hb => exact ih h.2 b hb

theorem quoted_self {t : Bytes} (h : ∀ b ∈ t, b ≠ 0x22) : Quoted t t := by
  induction t with
  | nil => exact .nil
  | cons b t ih => exact .byte (h b (by simp)) (ih fun b hb => h b (by simp [hb]))

theorem quoted_encode (cs : List Char) : Quoted (encode (doubleQuotes cs)) (encode cs) := by
  induction cs with
  | nil => exact .nil
  | cons c cs ih =>
    unfold doubleQuotes
    by_cases hc : c = '"'
    · subst hc
      exact .quote ih
    · rw [if_neg hc, Text.encode_cons, Text.encode_cons]
      refine .append (quoted_self fun b hb hquote => hc ?_) ih
      subst hquote
      exact Text.eq_of_mem_utf8EncodeChar (d := '"') (by decide) hb

theorem field_encode (cs : List Char) : Field (encode (field cs)) (encode cs) := by
  unfold field
  by_cases h : needsQuotes cs
  · have hquoted : Field (0x22 :: (encode (doubleQuotes cs) ++ [0x22])) (encode cs ++ []) :=
      .quoted (quoted_encode cs) (by simp) (by simp)
    rw [List.append_nil] at hquoted
    rw [if_pos h, List.cons_append, Text.encode_cons, Text.encode_append]
    exact hquoted
  · have hall := ordinary_encode (Bool.not_eq_true _ ▸ h)
    rw [if_neg h]
    refine .plain (fun hhead => ?_) fun b hb => (hall b hb).1
    exact (hall _ (List.mem_of_head? hhead)).2 rfl

example : field "say \"hi\", twice".toList = "\"say \"\"hi\"\", twice\"".toList := by
  decide

/-! ## Records -/

theorem line_encode (f : List Char) (fs : List (List Char)) :
    ∃ t, encode (record (f :: fs)) = t ++ [0x0A] ∧ Line t ((f :: fs).map encode) := by
  induction fs generalizing f with
  | nil => exact ⟨encode (field f), by rw [record, Text.encode_append]; rfl, .last (field_encode f)⟩
  | cons g gs ih =>
    obtain ⟨t, heq, hline⟩ := ih g
    refine ⟨encode (field f) ++ 0x2C :: t, ?_, .cons (field_encode f) hline⟩
    have hrecord : record (f :: g :: gs) = field f ++ ',' :: record (g :: gs) := rfl
    rw [hrecord, Text.encode_append, Text.encode_cons, heq, List.append_assoc]
    rfl

end Csv

end Causeway
