import Causeway.Proofs.Binary64.Text
import Causeway.Replay.Instruction

/-!
# Amounts as they are read from rows

A whole amount is read exactly below 2^64 and not at all from there on. An amount with a point is
read through a double, so it is read exactly just if it survives that: up to fifteen digits always
do, and more than seventeen never (`amount_exact_iff`).
-/

namespace Causeway.Instruction

open Binary64 (Digits Survives)
open Decimal (Representable)
open Text (DigitsEnd readAll)

/-! ## Literals -/

/-- Digits with at most one point. -/
structure Literal where
  whole : List Char
  fraction : Option (List Char)
  isDigit : ∀ c ∈ whole ++ fraction.getD [], c.isDigit

namespace Literal

variable {l : Literal} {fraction : List Char}

def toChars (l : Literal) : List Char :=
  l.whole ++ match l.fraction with
    | none => []
    | some ds => '.' :: ds

def text (l : Literal) : String := String.ofList l.toChars

/-- All its digits as one number. -/
def number (l : Literal) : Nat := Nat.ofDigitChars 10 (l.whole ++ l.fraction.getD []) 0

def places (l : Literal) : Nat := (l.fraction.getD []).length

def value (l : Literal) : ℚ := l.number / tenTo l.places

def digits (l : Literal) : Digits := ⟨l.number, -l.places⟩

theorem value_digits (l : Literal) : l.digits.value = l.value := by
  rw [digits, Digits.value, zpow_neg, zpow_natCast, value, cast_tenTo, div_eq_mul_inv]

theorem isDigit_whole (l : Literal) : ∀ c ∈ l.whole, c.isDigit :=
  fun c hc => l.isDigit c (List.mem_append_left _ hc)

theorem isDigit_fraction (h : l.fraction = some fraction) : ∀ c ∈ fraction, c.isDigit := by
  intro c hc
  refine l.isDigit c (List.mem_append_right _ ?_)
  rwa [h]

/-- What is greater than zero has digits. -/
theorem digits_ne_nil (hpos : 0 < l.value) : l.whole ++ l.fraction.getD [] ≠ [] := by
  intro hnil
  have hzero : l.number = 0 := by
    rw [number, hnil]
    rfl
  rw [value, hzero, Nat.cast_zero, zero_div] at hpos
  exact lt_irrefl _ hpos

end Literal

/-! ## Parts of a cell -/

theorem digits_append {ds rest : List Char} (hds : ∀ c ∈ ds, c.isDigit) (hrest : DigitsEnd rest) :
    digits (ds ++ rest) = (Nat.ofDigitChars 10 ds 0, ds.length, rest) := by
  unfold digits
  by_cases hne : ds = []
  · rw [hne, List.nil_append, Text.readAll_eq_none hrest]
    rfl
  · rw [Text.readAll_append hds hne hrest]
    simp

theorem signed_of_unsigned {cs : List Char} (h : ∀ c ∈ cs.head?, c ≠ '-' ∧ c ≠ '+') :
    signed cs = (false, cs) := by
  unfold signed
  split
  · exact absurd rfl (h '-' rfl).1
  · exact absurd rfl (h '+' rfl).2
  · rfl

namespace Literal

variable {l : Literal} {fraction : List Char}

theorem signed_toChars (l : Literal) : signed l.toChars = (false, l.toChars) := by
  refine signed_of_unsigned fun c hc => ?_
  have hmem : c ∈ l.toChars := List.mem_of_head? hc
  have hcases : c.isDigit ∨ c = '.' := by
    unfold toChars at hmem
    rcases List.mem_append.mp hmem with hmem | hmem
    · exact .inl (l.isDigit_whole c hmem)
    · cases hfraction : l.fraction with
      | none =>
          rw [hfraction] at hmem
          cases hmem
      | some ds =>
          rw [hfraction] at hmem
          rcases List.mem_cons.mp hmem with rfl | hmem
          · exact .inr rfl
          · exact .inl (isDigit_fraction hfraction c hmem)
  constructor
  · rintro rfl
    exact absurd hcases (by decide)
  · rintro rfl
    exact absurd hcases (by decide)

theorem toChars_of_whole (h : l.fraction = none) : l.toChars = l.whole := by
  rw [toChars, h]
  exact List.append_nil _

theorem toChars_of_pointed (h : l.fraction = some fraction) :
    l.toChars = l.whole ++ '.' :: fraction := by
  rw [toChars, h]

theorem whole?_of_whole (h : l.fraction = none) (hpos : 0 < l.value) :
    whole? l.toChars = some (l.number : Int) := by
  have hne : l.whole ≠ [] := by
    have hdigits := digits_ne_nil hpos
    rwa [h, Option.getD_none, List.append_nil] at hdigits
  have hread := Text.readAll_append l.isDigit_whole hne Text.digitsEnd_nil
  rw [List.append_nil] at hread
  have hnumber : l.number = Nat.ofDigitChars 10 l.whole 0 := by
    rw [number, h, Option.getD_none, List.append_nil]
  rw [whole?, signed_toChars, toChars_of_whole h, hnumber]
  dsimp only
  rw [hread]
  rfl

theorem whole?_of_pointed (h : l.fraction = some fraction) : whole? l.toChars = none := by
  rw [whole?, signed_toChars, toChars_of_pointed h]
  dsimp only
  by_cases hne : l.whole = []
  · rw [hne, List.nil_append, Text.readAll_eq_none (Text.digitsEnd_cons rfl)]
  · rw [Text.readAll_append l.isDigit_whole hne (Text.digitsEnd_cons rfl)]

theorem number_of_pointed (h : l.fraction = some fraction) : l.number =
    Nat.ofDigitChars 10 l.whole 0 * tenTo fraction.length + Nat.ofDigitChars 10 fraction 0 := by
  rw [number, h, Option.getD_some, Nat.ofDigitChars_append, Nat.ofDigitChars_eq_ofDigitChars_zero,
    Nat.mul_comm]
  rfl

theorem real?_of_pointed (h : l.fraction = some fraction) (hpos : 0 < l.value) :
    real? l.toChars = some ⟨false, l.digits.double?⟩ := by
  have hdigits := digits_ne_nil hpos
  rw [h, Option.getD_some] at hdigits
  have hcount : ¬ l.whole.length + fraction.length = 0 := by
    rwa [← List.length_append, List.length_eq_zero_iff]
  have hfraction := digits_append (isDigit_fraction h) Text.digitsEnd_nil
  rw [List.append_nil] at hfraction
  have hplaces : l.places = fraction.length := by rw [places, h, Option.getD_some]
  have hpoint : DigitsEnd ('.' :: fraction) := Text.digitsEnd_cons rfl
  rw [real?, signed_toChars, toChars_of_pointed h]
  simp only [digits_append l.isDigit_whole hpoint, hfraction, exponent?,
    Option.bind_eq_bind, Option.bind_some, if_neg hcount]
  rw [Digits.double?, Literal.digits, number_of_pointed h, hplaces, zero_sub]

/-! ## Reading cells -/

/-- The literals whose amounts are read exactly. -/
def Kept (l : Literal) : Prop :=
  match l.fraction with
  | none => l.value < 2 ^ 64
  | some _ => Survives l.value

theorem kept_of_pointed (h : l.fraction ≠ none) : l.Kept ↔ Survives l.value := by
  unfold Kept
  split
  · rename_i hnone
    exact absurd hnone h
  · exact Iff.rfl

theorem value_of_whole (h : l.fraction = none) : l.value = l.number := by
  rw [value, places, h, Option.getD_none, List.length_nil, tenTo_zero, Nat.cast_one, div_one]

/-- A whole number is read up to 64 bits and refused from there on. -/
theorem amount?_of_whole (h : l.fraction = none) (hpos : 0 < l.value)
    (hrep : Representable l.value) :
    (l.number < 2 ^ 64 ∧ ∃ x, amount? l.text = some x ∧ x.value = l.value) ∨
      2 ^ 64 ≤ l.number ∧ amount? l.text = none := by
  have hvalue := value_of_whole h
  have hrange : l.number < 2 ^ 96 := by
    obtain ⟨-, -, -, -, hlt⟩ := Binary64.exists_digits_of_representable hrep hpos
    rw [hvalue] at hlt
    exact_mod_cast hlt
  have hwhole := whole?_of_whole h hpos
  unfold amount?
  dsimp only
  rw [show l.text.toList = l.toChars from String.toList_ofList, hwhole]
  dsimp only
  rcases Nat.lt_or_ge l.number (2 ^ 64) with hlt | hge
  · left
    have hword : -(twoTo 63 : ℤ) ≤ (l.number : ℤ) ∧ (l.number : ℤ) < twoTo 64 :=
      ⟨by omega, by exact_mod_cast hlt⟩
    rw [if_pos hword]
    refine ⟨hlt, ⟨l.number, 0, false, hrange, by decide⟩, ?_, ?_⟩
    · rw [Decimal.ofInt?, decide_eq_false (by omega), Int.natAbs_natCast]
      exact dif_pos ⟨hrange, by decide⟩
    · rw [hvalue, Decimal.value, tenTo_zero, Nat.cast_one, div_one]
      rfl
  · right
    have hword : ¬ (-(twoTo 63 : ℤ) ≤ (l.number : ℤ) ∧ (l.number : ℤ) < twoTo 64) :=
      fun hlt => absurd hlt.2 (by exact_mod_cast Nat.not_lt.mpr hge)
    have hdouble : -(twoTo 127 : ℤ) ≤ (l.number : ℤ) ∧ (l.number : ℤ) < twoTo 128 :=
      ⟨by omega, by exact_mod_cast hrange.trans (by decide)⟩
    rw [if_neg hword, if_pos hdouble]
    exact ⟨hge, rfl⟩

/-- A number with a point is read from the text of its double. -/
theorem amount?_of_pointed (h : l.fraction = some fraction) (hpos : 0 < l.value) :
    amount? l.text = l.digits.double?.bind fun x => Decimal.ofPlain? (x.positional false) := by
  have hpoint : '.' ∈ l.text.toList := by
    rw [text, String.toList_ofList, toChars_of_pointed h]
    simp
  have hname : ¬ (l.text = "true" ∨ l.text = "false") := by
    rintro (hname | hname)
    · rw [hname] at hpoint
      exact absurd hpoint (by decide)
    · rw [hname] at hpoint
      exact absurd hpoint (by decide)
  unfold amount?
  dsimp only
  rw [show l.text.toList = l.toChars from String.toList_ofList, whole?_of_pointed h,
    real?_of_pointed h hpos]
  dsimp only
  rw [if_neg hname]
  rfl

theorem amount?_exact_iff (hpos : 0 < l.value) (hrep : Representable l.value) :
    (∃ x, amount? l.text = some x ∧ x.value = l.value) ↔ l.Kept := by
  unfold Kept
  split
  · rename_i h
    rw [value_of_whole h]
    obtain ⟨hlt, x, hx, hvalue⟩ | ⟨hge, hnone⟩ := amount?_of_whole h hpos hrep
    · rw [value_of_whole h] at hvalue
      exact ⟨fun _ => by exact_mod_cast hlt, fun _ => ⟨x, hx, hvalue⟩⟩
    · constructor
      · rintro ⟨x, hx, -⟩
        rw [hnone] at hx
        cases hx
      · intro hlt
        exact absurd hge (Nat.not_le.mpr (by exact_mod_cast hlt))
  · rename_i fraction h
    rw [amount?_of_pointed h hpos, ← Binary64.read_iff_survives hrep hpos l.value_digits]
    constructor
    · rintro ⟨y, hy, hvalue⟩
      obtain ⟨x, hx, hread⟩ := Option.bind_eq_some_iff.mp hy
      exact ⟨x, hx, y, hread, hvalue⟩
    · rintro ⟨x, hx, y, hread, hvalue⟩
      exact ⟨y, by rw [hx, Option.bind_some, hread], hvalue⟩

end Literal

/-! ## Reading rows -/

variable {bs : Bytes} {header cells : List String} {row : Instruction} {amount : String} {n : Nat}
  {l : Literal}

/-- The cells hold what the row has besides its amount. -/
structure Besides (header cells : List String) (row : Instruction) : Prop where
  user : (cell? header cells "user").bind Uuid.ofText? = some row.user
  status : cell? header cells "kyc_status" = some row.status
  railAccount : cell? header cells "rail_account" = some row.railAccount
  brokerageAccount : cell? header cells "brokerage_account" = some row.brokerageAccount
  reference : cell? header cells "reference" = some row.reference
  settlement : (cell? header cells "outcome").bind Settlement.ofName? = some row.settlement

/-- The file's row `n` is valid but for its amount, and the cell of that holds the text. -/
def AwaitsAmount (bs : Bytes) (n : Nat) (row : Instruction) (amount : String) : Prop :=
  ∃ (h r : Csv.Record) (rs : List Csv.Record) (cells : List String),
    Csv.records bs = h :: rs ∧ rs[n]? = some r ∧ r.fields.length = h.fields.length ∧
      texts? r = some cells ∧ Besides ((texts? h).getD columns) cells row ∧
      cell? ((texts? h).getD columns) cells "amount" = some amount

theorem ofCells?_eq (h : Besides header cells row)
    (hamount : cell? header cells "amount" = some amount) : ofCells? header cells =
      ((amount? amount).bind Amount.ofDecimal?).map fun a => { row with amount := a } := by
  obtain ⟨user, huser, huser'⟩ := Option.bind_eq_some_iff.mp h.user
  obtain ⟨settlement, hsettlement, hsettlement'⟩ := Option.bind_eq_some_iff.mp h.settlement
  unfold ofCells?
  simp only [huser, huser', h.status, h.railAccount, h.brokerageAccount, h.reference, hamount,
    hsettlement, hsettlement', Option.bind_eq_bind, Option.bind_some]
  cases amount? amount with
  | none => rfl
  | some x =>
      rw [Option.bind_some, Option.bind_some]
      cases Amount.ofDecimal? x <;> rfl

/-- The row is read just if its amount is, and then with that. -/
theorem ofCsv_eq_ok_iff {a : Amount} (h : AwaitsAmount bs n row amount) :
    (ofCsv bs)[n]? = some (.ok { row with amount := a }) ↔ amount? amount = some a.value := by
  obtain ⟨head, r, rs, cells, hcsv, hr, hwidth, htexts, hbesides, hamount⟩ := h
  have hread : (amount? amount).bind Amount.ofDecimal? = some a ↔ amount? amount = some a.value := by
    simp [Option.bind_eq_some_iff, Amount.ofDecimal?_eq_some_iff]
  rw [← hread, ofCsv, hcsv]
  dsimp only
  rw [List.getElem?_map, hr, Option.map_some, ofRecord, if_neg (not_not.mpr hwidth), htexts]
  dsimp only
  rw [ofCells?_eq hbesides hamount]
  cases (amount? amount).bind Amount.ofDecimal? with
  | none => simp
  | some b => simp

/-- A row is read with exactly its amount just if the literal is kept. With a point up to fifteen
digits are, and more than seventeen are not. -/
theorem amount_exact_iff (h : AwaitsAmount bs n row l.text) (hpos : 0 < l.value)
    (hrep : Representable l.value) :
    ((∃ a : Amount, a.value.value = l.value ∧
        (ofCsv bs)[n]? = some (.ok { row with amount := a })) ↔ l.Kept) ∧
      (l.fraction ≠ none → (∃ d : Digits, d.value = l.value ∧ d.digits < 10 ^ 15) → l.Kept) ∧
      (l.fraction ≠ none → l.Kept → ∃ d : Digits, d.value = l.value ∧ d.digits < 10 ^ 17) := by
  have hread : (∃ a : Amount, a.value.value = l.value ∧
      (ofCsv bs)[n]? = some (.ok { row with amount := a })) ↔
        ∃ x, amount? l.text = some x ∧ x.value = l.value := by
    constructor
    · rintro ⟨a, hvalue, hok⟩
      exact ⟨a.value, (ofCsv_eq_ok_iff h).mp hok, hvalue⟩
    · rintro ⟨x, hx, hvalue⟩
      have hxpos : Decimal.zero < x := by
        rw [Decimal.lt_iff, Decimal.value_zero, hvalue]
        exact hpos
      exact ⟨⟨x, hxpos⟩, hvalue, (ofCsv_eq_ok_iff h).mpr hx⟩
  refine ⟨hread.trans (Literal.amount?_exact_iff hpos hrep), ?_, ?_⟩
  · rintro hpoint ⟨d, hd, hfew⟩
    exact (Literal.kept_of_pointed hpoint).mpr (Binary64.survives_of_few hrep hpos hd hfew)
  · intro hpoint hkept
    exact ((Literal.kept_of_pointed hpoint).mp hkept).few hrep hpos

/-! ## Sample files -/

namespace Sample

def fields (l : Literal) : List String :=
  ["6f1c2a9e-7d1b-4c55-9a55-0b1f3c3b8d11", "approved", "rail-1", "brk-1", "dep-1", l.text,
   "completed"]

/-- A file whose only row has the literal for its amount. -/
def file (l : Literal) : Bytes :=
  Text.toBytes (",".intercalate columns ++ "\n" ++ ",".intercalate (fields l) ++ "\n")

def instruction (amount : Amount) : Instruction :=
  { user := ⟨0x6f1c2a9e7d1b4c559a550b1f3c3b8d11⟩
    status := "approved"
    railAccount := "rail-1"
    brokerageAccount := "brk-1"
    reference := "dep-1"
    amount
    settlement := .completed }

theorem file_awaits {a : Amount}
    (hcsv : Csv.records (file l) =
      [⟨columns.map Text.toBytes, 0, 1⟩, ⟨(fields l).map Text.toBytes, 1, 2⟩])
    (htexts : texts? ⟨(fields l).map Text.toBytes, 1, 2⟩ = some (fields l)) :
    AwaitsAmount (file l) 0 (instruction a) l.text := by
  have hheader : texts? ⟨columns.map Text.toBytes, 0, 1⟩ = some columns := by decide +kernel
  have huser : Uuid.ofText? "6f1c2a9e-7d1b-4c55-9a55-0b1f3c3b8d11" =
      some ⟨0x6f1c2a9e7d1b4c559a550b1f3c3b8d11⟩ := by decide +kernel
  refine ⟨_, _, _, fields l, hcsv, rfl, rfl, htexts, ?_, ?_⟩
  · rw [hheader, Option.getD_some]
    exact ⟨huser, rfl, rfl, rfl, rfl, rfl⟩
  · rw [hheader, Option.getD_some]
    rfl

/-- The amount has just the digits of the literal. -/
def Writes (l : Literal) (a : Amount) : Prop :=
  a.value.coefficient = l.number ∧ a.value.places = l.places

theorem Writes.value_eq {a : Amount} (h : Writes l a) : a.value.value = l.value := by
  rw [Decimal.value, Literal.value, h.1, h.2, Int.cast_natCast]

theorem Writes.value_pos {a : Amount} (h : Writes l a) : 0 < l.value := by
  have hpos := Decimal.lt_iff.mp a.pos
  rwa [Decimal.value_zero, h.value_eq] at hpos

theorem Writes.representable {a : Amount} (h : Writes l a) : Representable l.value :=
  ⟨a.value, h.value_eq⟩

def seventeenDigits : Literal :=
  ⟨"0".toList, some "12345678901234568".toList, List.all_eq_true.mp (by decide)⟩

def eighteenDigits : Literal :=
  ⟨"0".toList, some "123456789012345678".toList, List.all_eq_true.mp (by decide)⟩

def sixtyFiveBits : Literal :=
  ⟨"18446744073709551616".toList, none, List.all_eq_true.mp (by decide)⟩

def shorter : Amount := ⟨⟨12345678901234568, 17, false, by decide, by decide⟩, by decide +kernel⟩

def longer : Amount := ⟨⟨123456789012345678, 18, false, by decide, by decide⟩, by decide +kernel⟩

def large : Amount where
  value := { Decimal.zero with magnitude := 18446744073709551616, magnitude_lt := by decide }
  pos := by decide +kernel

theorem seventeen_digits_survive :
    AwaitsAmount (file seventeenDigits) 0 (instruction large) seventeenDigits.text ∧
      0 < seventeenDigits.value ∧ Representable seventeenDigits.value ∧ seventeenDigits.Kept := by
  have hawaits := file_awaits (a := large) (l := seventeenDigits) (by decide +kernel)
    (by decide +kernel)
  have hwrites : Writes seventeenDigits shorter := ⟨by decide +kernel, rfl⟩
  have hread : (ofCsv (file seventeenDigits))[0]? = some (.ok (instruction shorter)) := by
    decide +kernel
  exact ⟨hawaits, hwrites.value_pos, hwrites.representable,
    (amount_exact_iff hawaits hwrites.value_pos hwrites.representable).1.mp
      ⟨shorter, hwrites.value_eq, hread⟩⟩

/-- A whole amount of 65 bits is refused, and one of eighteen digits is read as a greater one. -/
theorem digits_are_lost :
    (AwaitsAmount (file sixtyFiveBits) 0 (instruction large) sixtyFiveBits.text ∧
        0 < sixtyFiveBits.value ∧ Representable sixtyFiveBits.value ∧
        ofCsv (file sixtyFiveBits) = [.error ⟨.unreadable, 1, 2⟩]) ∧
      (AwaitsAmount (file eighteenDigits) 0 (instruction longer) eighteenDigits.text ∧
        0 < eighteenDigits.value ∧ Representable eighteenDigits.value ∧
        ofCsv (file eighteenDigits) = [.ok (instruction shorter)] ∧
        eighteenDigits.value < shorter.value.value) := by
  have hlarge : Writes sixtyFiveBits large := ⟨by decide +kernel, rfl⟩
  have hlonger : Writes eighteenDigits longer := ⟨by decide +kernel, rfl⟩
  have hgreater : eighteenDigits.value < shorter.value.value := by
    rw [← hlonger.value_eq, ← Decimal.lt_iff]
    decide +kernel
  exact ⟨⟨file_awaits (by decide +kernel) (by decide +kernel), hlarge.value_pos,
      hlarge.representable, by decide +kernel⟩,
    ⟨file_awaits (by decide +kernel) (by decide +kernel), hlonger.value_pos,
      hlonger.representable, by decide +kernel, hgreater⟩⟩

end Sample

end Causeway.Instruction
