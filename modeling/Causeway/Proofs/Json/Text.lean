import Causeway.Json.Reader
import Causeway.Json.Writer
import Causeway.Proofs.Text

/-!
# Reading JSON back

What `render` writes of a value without numbers is read as the tree of that value
(`ofBytes?_render`). The reader looks at bytes and the writer writes characters, so a string is
followed character by character: each is written in a way that spells its bytes.
-/

namespace Causeway.Json

open Text (encode)

/-! ## Strings -/

variable {c e : Char} {cs : List Char} {acc : List Piece} {rest : Bytes}

theorem readString_escape {b b' : UInt8} (h : simpleEscape? b = some b') :
    readString acc (0x5C :: b :: rest) = readString (.byte b' :: acc) rest := by
  have hu : b ≠ 0x75 := by rintro rfl; simp [simpleEscape?] at h
  rw [readString]
  · rw [h]
  · rintro a b c d bs rfl
    exact absurd rfl hu

theorem readString_unit {a b c d : UInt8} {n : Nat} (h : hexUnit? a b c d = some n) :
    readString acc (0x5C :: 0x75 :: a :: b :: c :: d :: rest) = readString (.unit n :: acc) rest := by
  rw [readString, h]

/-- The byte stands for itself in a string. -/
def Plain (b : UInt8) : Prop := ¬ b < 0x20 ∧ b ≠ 0x22 ∧ b ≠ 0x5C

theorem readString_byte {b : UInt8} (h : Plain b) :
    readString acc (b :: rest) = readString (.byte b :: acc) rest := by
  obtain ⟨hcontrol, hquote, hescape⟩ := h
  rw [readString]
  · rw [if_neg hcontrol]
  · rintro rfl
    exact absurd rfl hquote
  · rintro a b c d bs rfl
    exact absurd rfl hescape
  · rintro b bs rfl
    exact absurd rfl hescape

theorem readString_bytes {bs : Bytes} (h : ∀ b ∈ bs, Plain b) :
    readString acc (bs ++ rest) = readString ((bs.map .byte).reverse ++ acc) rest := by
  induction bs generalizing acc with
  | nil => rfl
  | cons b bs ih =>
      rw [List.cons_append, readString_byte (h b (by simp)), ih fun b hb => h b (by simp [hb])]
      simp

theorem bytesOfPieces?_bytes (bs : Bytes) (ps : List Piece) :
    bytesOfPieces? (bs.map .byte ++ ps) = (bytesOfPieces? ps).map (bs ++ ·) := by
  induction bs with
  | nil => simp
  | cons b bs ih =>
      rw [List.map_cons, List.cons_append, bytesOfPieces?, ih, Option.map_map]
      rfl

/-- Within a string, the characters `cs` spell the character `c`. -/
def Spells (c : Char) (cs : List Char) : Prop :=
  ∃ ps, (∀ acc rest, readString acc (encode cs ++ rest) = readString (ps.reverse ++ acc) rest) ∧
    ∀ qs, bytesOfPieces? (ps ++ qs) = (bytesOfPieces? qs).map (String.utf8EncodeChar c ++ ·)

theorem Spells.escape (b b' : UInt8) (he : String.utf8EncodeChar e = [b])
    (h : simpleEscape? b = some b') (hc : String.utf8EncodeChar c = [b']) : Spells c ['\\', e] := by
  refine ⟨[.byte b'], fun acc rest => ?_, fun qs => ?_⟩
  · have hslash : String.utf8EncodeChar '\\' = [0x5C] := rfl
    simp only [Text.encode_cons, Text.encode_nil, hslash, he, List.cons_append, List.nil_append,
      readString_escape h]
    rfl
  · rw [hc]
    rfl

theorem utf8EncodeChar_digit : ∀ n < 16,
    String.utf8EncodeChar (Hex.digit n) = [UInt8.ofNat (Hex.digit n).toNat] := by decide

theorem hexUnit?_digits : ∀ n < 0x20,
    hexUnit? (UInt8.ofNat (Hex.digit (n / 16 / 16 / 16 % 16)).toNat)
      (UInt8.ofNat (Hex.digit (n / 16 / 16 % 16)).toNat)
      (UInt8.ofNat (Hex.digit (n / 16 % 16)).toNat)
      (UInt8.ofNat (Hex.digit (n % 16)).toNat) = some n := by decide

theorem Spells.unit (h : c.toNat < 0x20) : Spells c ('\\' :: 'u' :: Hex.digits 4 c.toNat) := by
  refine ⟨[.unit c.toNat], fun acc rest => ?_, fun qs => ?_⟩
  · have hslash : String.utf8EncodeChar '\\' = [0x5C] := rfl
    have hmark : String.utf8EncodeChar 'u' = [0x75] := rfl
    have hdigit : ∀ n, String.utf8EncodeChar (Hex.digit (n % 16)) =
        [UInt8.ofNat (Hex.digit (n % 16)).toNat] :=
      fun n => utf8EncodeChar_digit _ (Nat.mod_lt n (by decide))
    simp only [Hex.digits, Text.encode_cons, Text.encode_nil, hslash, hmark, hdigit,
      List.cons_append, List.nil_append, readString_unit (hexUnit?_digits _ h)]
    rfl
  · rw [List.singleton_append, bytesOfPieces?.eq_def]
    dsimp only
    rw [if_pos (Or.inl (by omega)), bytesOfUnit, Char.ofNat_toNat, Text.toBytes_eq_encode,
      String.toList_singleton, Text.encode_cons, Text.encode_nil, List.append_nil]

theorem Spells.self (hcontrol : ¬ c.toNat < 0x20) (hquote : c ≠ '"') (hescape : c ≠ '\\') :
    Spells c [c] := by
  have hplain : ∀ b ∈ String.utf8EncodeChar c, Plain b := by
    intro b hb
    by_cases h : c.toNat ≤ 0x7F
    · rw [Text.utf8EncodeChar_of_le h, List.mem_singleton] at hb
      subst hb
      have hnat : (UInt8.ofNat c.toNat).toNat = c.toNat := by
        rw [UInt8.toNat_ofNat']
        omega
      refine ⟨?_, ?_, ?_⟩
      · rw [UInt8.lt_iff_toNat_lt, hnat]
        exact hcontrol
      · intro heq
        rw [heq] at hnat
        exact hquote (Char.toNat_inj.mp hnat.symm)
      · intro heq
        rw [heq] at hnat
        exact hescape (Char.toNat_inj.mp hnat.symm)
    · have hle := Text.le_of_mem_utf8EncodeChar (Nat.lt_of_not_le h) hb
      refine ⟨?_, ?_, ?_⟩
      · rw [UInt8.lt_iff_toNat_lt]
        exact Nat.not_lt.mpr (Nat.le_trans (by decide) hle)
      · rintro rfl
        exact absurd hle (by decide)
      · rintro rfl
        exact absurd hle (by decide)
  refine ⟨(String.utf8EncodeChar c).map .byte, fun acc rest => ?_, bytesOfPieces?_bytes _⟩
  rw [Text.encode_cons, Text.encode_nil, List.append_nil, readString_bytes hplain]

theorem spells_escapeChar (c : Char) : Spells c (escapeChar c) := by
  unfold escapeChar
  split
  · rename_i h; subst h
    exact .escape 0x22 0x22 rfl rfl rfl
  split
  · rename_i h; subst h
    exact .escape 0x5C 0x5C rfl rfl rfl
  split
  · rename_i h; subst h
    exact .escape 0x62 0x08 rfl rfl rfl
  split
  · rename_i h; subst h
    exact .escape 0x74 0x09 rfl rfl rfl
  split
  · rename_i h; subst h
    exact .escape 0x6E 0x0A rfl rfl rfl
  split
  · rename_i h; subst h
    exact .escape 0x66 0x0C rfl rfl rfl
  split
  · rename_i h; subst h
    exact .escape 0x72 0x0D rfl rfl rfl
  split
  · exact .unit ‹_›
  · exact .self ‹_› ‹_› ‹_›

theorem readString_escaped (cs : List Char) : ∃ ps, bytesOfPieces? ps = some (encode cs) ∧
    ∀ acc rest, readString acc (encode (cs.flatMap escapeChar) ++ 0x22 :: rest) =
      some (acc.reverse ++ ps, rest) := by
  induction cs with
  | nil =>
      refine ⟨[], rfl, fun acc rest => ?_⟩
      rw [List.append_nil]
      rfl
  | cons c cs ih =>
      obtain ⟨ps, hspells, hbytes⟩ := spells_escapeChar c
      obtain ⟨qs, hqs, hread⟩ := ih
      refine ⟨ps ++ qs, ?_, fun acc rest => ?_⟩
      · rw [hbytes, hqs]
        rfl
      · rw [List.flatMap_cons, Text.encode_append, List.append_assoc, hspells, hread]
        simp

/-- A quoted text is read back behind its first quote. -/
theorem readString_quoted (s : String) (rest : Bytes) : ∃ ps, textOfPieces? ps = some s ∧
    readString [] (encode (s.toList.flatMap escapeChar) ++ 0x22 :: rest) = some (ps, rest) := by
  obtain ⟨ps, hbytes, hread⟩ := readString_escaped s.toList
  refine ⟨ps, ?_, by simpa using hread [] rest⟩
  rw [textOfPieces?, hbytes, ← Text.toBytes_eq_encode]
  exact Text.ofBytes?_toBytes s

/-! ## Values -/

variable {j : Json} {t : Tree} {fuel : Nat}

/-- With fuel for every byte, `cs` is read as the tree `t`; it starts like neither a blank nor the
end of an array. -/
structure Reads (cs : List Char) (t : Tree) : Prop where
  read : ∀ fuel rest, (encode cs).length ≤ fuel →
    readValue fuel (encode cs ++ rest) = some (t, rest)
  begins : ∃ b bs, encode cs = b :: bs ∧ isBlank b = false ∧ b ≠ 0x5D

theorem skipBlanks_of_not_blank {b : UInt8} {bs : Bytes} (h : isBlank b = false) :
    skipBlanks (b :: bs) = b :: bs := by
  rw [skipBlanks, h]
  rfl

theorem Reads.skipBlanks (h : Reads cs t) (rest : Bytes) :
    skipBlanks (encode cs ++ rest) = encode cs ++ rest := by
  obtain ⟨b, bs, hcs, hblank, -⟩ := h.begins
  rw [hcs]
  exact skipBlanks_of_not_blank hblank

theorem encode_comma (cs : List Char) : encode (',' :: cs) = 0x2C :: encode cs := rfl

theorem encode_bracket (cs : List Char) : encode (']' :: cs) = 0x5D :: encode cs := rfl

theorem encode_brace (cs : List Char) : encode ('\x7d' :: cs) = 0x7D :: encode cs := rfl

theorem encode_colon (cs : List Char) : encode (':' :: cs) = 0x3A :: encode cs := rfl

theorem encode_quote (s : String) :
    encode (quote s) = 0x22 :: (encode (s.toList.flatMap escapeChar) ++ [0x22]) := by
  rw [quote, List.cons_append, Text.encode_cons, Text.encode_append]
  rfl

theorem readElements_of_reads {js : List Json} (hne : js ≠ [])
    (h : ∀ j ∈ js, Reads (renderChars j) j.toTree)
    (hfuel : (encode (renderElements js)).length ≤ fuel) :
    readElements fuel (encode (renderElements js) ++ rest) = some (listToTree js, rest) := by
  induction js generalizing fuel with
  | nil => exact absurd rfl hne
  | cons j js ih =>
      have hj := h j (by simp)
      cases js with
      | nil =>
          simp only [renderElements, Text.encode_append, encode_bracket, Text.encode_nil,
            List.length_append, List.length_singleton] at hfuel ⊢
          obtain ⟨fuel, rfl⟩ := Nat.exists_eq_add_of_lt hfuel
          rw [List.append_assoc, readElements, hj.skipBlanks, hj.read _ _ (by omega)]
          rfl
      | cons k ks =>
          simp only [renderElements, Text.encode_append, encode_comma, List.length_append,
            List.length_cons] at hfuel ⊢
          obtain ⟨fuel, rfl⟩ := Nat.exists_eq_succ_of_ne_zero (n := fuel) (by omega)
          rw [List.append_assoc, readElements, hj.skipBlanks, hj.read _ _ (by omega)]
          have hks : readElements fuel (encode (renderElements (k :: ks)) ++ rest) =
              some (listToTree (k :: ks), rest) :=
            ih (List.cons_ne_nil k ks) (fun j' hj' => h j' (List.mem_cons_of_mem j hj')) (by omega)
          have hcomma : Json.skipBlanks (0x2C :: (encode (renderElements (k :: ks)) ++ rest)) =
              0x2C :: (encode (renderElements (k :: ks)) ++ rest) := rfl
          simp only [Option.bind_eq_bind, Option.bind_some, List.cons_append, hcomma, hks]
          rfl

/-- A member is read up to the comma or the brace behind it. -/
theorem readMembers_member {k : String} {r : Option (List (Option String × Tree) × Bytes)}
    (hj : Reads (renderChars j) t) (hfuel : (encode (renderChars j)).length ≤ fuel)
    (hrest : (match skipBlanks rest with
      | 0x2C :: bs => do
        let (ms, bs) ← readMembers fuel bs
        pure ((some k, t) :: ms, bs)
      | 0x7D :: bs => pure ([(some k, t)], bs)
      | _ => none) = r) :
    readMembers (fuel + 1) (encode (quote k) ++ 0x3A :: (encode (renderChars j) ++ rest)) = r := by
  obtain ⟨ps, hps, hread⟩ := readString_quoted k (0x3A :: (encode (renderChars j) ++ rest))
  have hquote : ∀ bs, skipBlanks (0x22 :: bs) = 0x22 :: bs := fun _ => rfl
  have hcolon : ∀ bs, skipBlanks (0x3A :: bs) = 0x3A :: bs := fun _ => rfl
  rw [encode_quote, List.cons_append, List.append_assoc, List.singleton_append, readMembers]
  simp only [hquote, hread, Option.bind_eq_bind, Option.bind_some, hcolon, hj.skipBlanks,
    hj.read _ _ hfuel, hps]
  exact hrest

theorem readMembers_of_reads {ms : List (String × Json)} (hne : ms ≠ [])
    (h : ∀ m ∈ ms, Reads (renderChars m.2) m.2.toTree)
    (hfuel : (encode (renderMembers ms)).length ≤ fuel) :
    readMembers fuel (encode (renderMembers ms) ++ rest) = some (membersToTree ms, rest) := by
  induction ms generalizing fuel with
  | nil => exact absurd rfl hne
  | cons m ms ih =>
      obtain ⟨k, j⟩ := m
      have hj : Reads (renderChars j) j.toTree := h (k, j) (by simp)
      cases ms with
      | nil =>
          simp only [renderMembers, Text.encode_append, encode_colon, encode_brace,
            Text.encode_nil, List.length_append, List.length_cons, List.append_assoc,
            List.cons_append, List.nil_append] at hfuel ⊢
          obtain ⟨fuel, rfl⟩ := Nat.exists_eq_succ_of_ne_zero (n := fuel) (by omega)
          exact readMembers_member hj (by omega) rfl
      | cons m ms =>
          simp only [renderMembers, Text.encode_append, encode_colon, encode_comma,
            List.length_append, List.length_cons, List.append_assoc, List.cons_append] at hfuel ⊢
          obtain ⟨fuel, rfl⟩ := Nat.exists_eq_succ_of_ne_zero (n := fuel) (by omega)
          have hms : readMembers fuel (encode (renderMembers (m :: ms)) ++ rest) =
              some (membersToTree (m :: ms), rest) :=
            ih (List.cons_ne_nil m ms) (fun m' hm' => h m' (List.mem_cons_of_mem _ hm')) (by omega)
          have hcomma : skipBlanks (0x2C :: (encode (renderMembers (m :: ms)) ++ rest)) =
              0x2C :: (encode (renderMembers (m :: ms)) ++ rest) := rfl
          refine readMembers_member hj (by omega) ?_
          simp only [hcomma, hms]
          rfl

/-- No number stands in the value. -/
inductive NumberFree : Json → Prop where
  | null : NumberFree .null
  | bool (b : Bool) : NumberFree (.bool b)
  | string (s : String) : NumberFree (.string s)
  | array {js : List Json} (h : ∀ j ∈ js, NumberFree j) : NumberFree (.array js)
  | object {ms : List (String × Json)} (h : ∀ m ∈ ms, NumberFree m.2) : NumberFree (.object ms)

theorem NumberFree.reads (h : j.NumberFree) : Reads (renderChars j) j.toTree := by
  induction h with
  | null =>
      refine ⟨fun fuel rest hfuel => ?_, ⟨0x6E, [0x75, 0x6C, 0x6C], rfl, rfl, by decide⟩⟩
      obtain ⟨fuel, rfl⟩ := Nat.exists_eq_add_of_le' hfuel
      rfl
  | bool b =>
      cases b with
      | false =>
          refine ⟨fun fuel rest hfuel => ?_, ⟨0x66, [0x61, 0x6C, 0x73, 0x65], rfl, rfl, by decide⟩⟩
          obtain ⟨fuel, rfl⟩ := Nat.exists_eq_add_of_le' hfuel
          rfl
      | true =>
          refine ⟨fun fuel rest hfuel => ?_, ⟨0x74, [0x72, 0x75, 0x65], rfl, rfl, by decide⟩⟩
          obtain ⟨fuel, rfl⟩ := Nat.exists_eq_add_of_le' hfuel
          rfl
  | string s =>
      refine ⟨fun fuel rest hfuel => ?_, ⟨0x22, _, encode_quote s, rfl, by decide⟩⟩
      rw [renderChars, encode_quote] at hfuel ⊢
      obtain ⟨fuel, rfl⟩ := Nat.exists_eq_succ_of_ne_zero (n := fuel) (by rintro rfl; cases hfuel)
      obtain ⟨ps, hps, hread⟩ := readString_quoted s rest
      rw [List.cons_append, List.append_assoc, readValue, if_pos rfl, List.singleton_append, hread]
      simp [hps, toTree]
  | @array js _ ih =>
      refine ⟨fun fuel rest hfuel => ?_, ⟨0x5B, encode (renderElements js), rfl, rfl, by decide⟩⟩
      have hcs : encode (renderChars (.array js)) = 0x5B :: encode (renderElements js) := rfl
      rw [hcs, List.length_cons] at hfuel
      obtain ⟨fuel, rfl⟩ := Nat.exists_eq_succ_of_ne_zero (n := fuel) (by omega)
      cases js with
      | nil => rfl
      | cons j js =>
          have hread : readElements fuel (encode (renderElements (j :: js)) ++ rest) =
              some (listToTree (j :: js), rest) :=
            readElements_of_reads (List.cons_ne_nil j js) ih (Nat.le_of_succ_le_succ hfuel)
          -- The first element does not look like the end of the array.
          obtain ⟨b, bs, hbs, hblank, hend⟩ :
              ∃ b bs, encode (renderElements (j :: js)) = b :: bs ∧ isBlank b = false ∧ b ≠ 0x5D := by
            obtain ⟨b, bs, hj, hblank, hend⟩ := (ih j (by simp)).begins
            obtain ⟨cs, hcs⟩ : ∃ cs, renderElements (j :: js) = renderChars j ++ cs := by
              cases js <;> exact ⟨_, rfl⟩
            refine ⟨b, bs ++ encode cs, ?_, hblank, hend⟩
            rw [hcs, Text.encode_append, hj, List.cons_append]
          rw [hbs] at hread
          rw [hcs, hbs, List.cons_append, readValue, if_neg (by decide), if_pos rfl,
            List.cons_append, skipBlanks_of_not_blank hblank]
          split
          · rename_i heq
            exact absurd (List.cons.inj heq).1 hend
          · rw [List.cons_append] at hread
            rw [hread]
            rfl
  | @object ms _ ih =>
      refine ⟨fun fuel rest hfuel => ?_, ⟨0x7B, encode (renderMembers ms), rfl, rfl, by decide⟩⟩
      have hcs : encode (renderChars (.object ms)) = 0x7B :: encode (renderMembers ms) := rfl
      rw [hcs, List.length_cons] at hfuel
      obtain ⟨fuel, rfl⟩ := Nat.exists_eq_succ_of_ne_zero (n := fuel) (by omega)
      cases ms with
      | nil => rfl
      | cons m ms =>
          have hread : readMembers fuel (encode (renderMembers (m :: ms)) ++ rest) =
              some (membersToTree (m :: ms), rest) :=
            readMembers_of_reads (List.cons_ne_nil m ms) ih (Nat.le_of_succ_le_succ hfuel)
          obtain ⟨tail, htail⟩ : ∃ tail, encode (renderMembers (m :: ms)) = 0x22 :: tail := by
            cases ms <;> exact ⟨_, rfl⟩
          rw [hcs, List.cons_append, readValue, if_neg (by decide), if_neg (by decide), if_pos rfl,
            htail]
          rw [htail] at hread
          have hskip : skipBlanks (0x22 :: tail ++ rest) = 0x22 :: tail ++ rest := rfl
          rw [hskip, List.cons_append]
          split
          · rename_i heq
            exact absurd (List.cons.inj heq).1 (by decide)
          · rw [List.cons_append] at hread
            rw [hread]
            rfl

theorem ofBytes?_render (h : j.NumberFree) :
    Tree.ofBytes? (Text.toBytes j.render) = some j.toTree := by
  have hreads := h.reads
  have hskip := hreads.skipBlanks []
  have hread := hreads.read _ [] (Nat.le_succ _)
  rw [List.append_nil] at hskip hread
  rw [render, Text.toBytes_ofList, Tree.ofBytes?, hskip, hread]
  rfl

end Causeway.Json
