import Causeway.Proofs.Text
import Causeway.Webhook.Signature

/-!
# Which signatures pass

Base 16 reads bytes from a text exactly if the text is what it writes for them, but for the case of
letters (`Hex.decode?_eq_some_iff`). So a delivery passes with the signature that its own body has
under the secret, with blanks around it and in either case, and with no other text
(`only_own_signature_passes`).
-/

namespace Causeway

namespace Hex

variable {c : Char} {n : Nat} {cs : List Char} {bs : Bytes}

/-! ## Digits of either case -/

theorem le_of_value? (h : value? c = some n) : c ≤ 'f' := by
  unfold value? at h
  split at h
  · rename_i hc
    exact Char.le_trans hc.2 (by decide)
  · split at h
    · rename_i hc
      exact hc.2
    · split at h
      · rename_i hc
        exact Char.le_trans hc.2 (by decide)
      · cases h

theorem value?_ascii : ∀ m < 128, value? (Char.ofNat m).toLower = value? (Char.ofNat m) ∧
    ∀ n ∈ value? (Char.ofNat m), n < 16 ∧ (Char.ofNat m).toLower = digit n := by decide

theorem value?_toLower (c : Char) : value? c.toLower = value? c := by
  by_cases h : c.toNat < 128
  · have hc := (value?_ascii _ h).1
    rwa [Char.ofNat_toNat] at hc
  · have hlower : c.toLower = c := dif_neg fun ⟨_, hz⟩ => by
      have hz : c.toNat ≤ 90 := UInt32.le_iff_toNat_le.mp hz
      omega
    rw [hlower]

theorem value?_eq_some_iff : value? c = some n ↔ n < 16 ∧ c.toLower = digit n := by
  constructor
  · intro h
    have hle : c.toNat ≤ 102 := UInt32.le_iff_toNat_le.mp (le_of_value? h)
    have hc := (value?_ascii c.toNat (by omega)).2 n
    rw [Char.ofNat_toNat] at hc
    exact hc h
  · rintro ⟨hn, h⟩
    rw [← value?_toLower, h, value?_digit n hn]

/-! ## Texts -/

theorem length_encode (bs : Bytes) : (encode bs).length = 2 * bs.length := by
  induction bs with
  | nil => rfl
  | cons b bs ih =>
      simp only [encode, List.length_cons, ih]
      omega

theorem decode?_toLower (cs : List Char) : decode? (cs.map Char.toLower) = decode? cs := by
  induction cs using decode?.induct with
  | case1 => rfl
  | case2 c => rfl
  | case3 h l cs ih => simp only [List.map_cons, decode?, value?_toLower, ih]

theorem toLower_of_decode? (h : decode? cs = some bs) : cs.map Char.toLower = encode bs := by
  induction cs using decode?.induct generalizing bs with
  | case1 =>
      cases h
      rfl
  | case2 c => cases h
  | case3 c c' cs ih =>
      simp only [decode?, Option.bind_eq_bind, Option.bind_eq_some_iff, Option.pure_def] at h
      obtain ⟨high, hhigh, low, hlow, bs', hbs', he⟩ := h
      cases he
      obtain ⟨hlt, hc⟩ := value?_eq_some_iff.mp hhigh
      obtain ⟨hlt', hc'⟩ := value?_eq_some_iff.mp hlow
      have hb : (UInt8.ofNat (16 * high + low)).toNat = 16 * high + low := by
        rw [UInt8.toNat_ofNat']
        omega
      have hdiv : (16 * high + low) / 16 = high := by omega
      have hmod : (16 * high + low) % 16 = low := by omega
      rw [List.map_cons, List.map_cons, hc, hc', ih hbs', encode, hb, hdiv, hmod]

/-- Bytes are read from the texts that are written for them in either case, and from no others. -/
theorem decode?_eq_some_iff : decode? cs = some bs ↔ cs.map Char.toLower = encode bs := by
  refine ⟨toLower_of_decode?, fun h => ?_⟩
  rw [← decode?_toLower, h, decode?_encode]

theorem isSome_value?_of_decode? (h : decode? cs = some bs) (hc : c ∈ cs) : (value? c).isSome := by
  have hmem : c.toLower ∈ encode bs := toLower_of_decode? h ▸ List.mem_map_of_mem hc
  obtain ⟨n, hn, hdigit⟩ := exists_digit_of_mem_encode hmem
  rw [value?_eq_some_iff.mpr ⟨hn, hdigit⟩]
  rfl

end Hex

namespace Webhook

variable {secret signature : String} {body : Bytes}

theorem length_sign (secret : String) (body : Bytes) : (sign secret body).length = 64 := by
  rw [sign, String.length_ofList, Hex.length_encode, Digest.length_hmac]

theorem decode?_of_verify (h : verify secret body signature = .ok ()) :
    Hex.decode? (Text.trim signature).toList = some (Digest.hmac (Text.toBytes secret) body) := by
  unfold verify at h
  split at h
  · rename_i hd
    rwa [Text.trim, String.toList_ofList]
  · cases h

theorem verify_eq_ok_iff : verify secret body signature = .ok () ↔
    Text.asciiLower (Text.trim signature) = sign secret body := by
  unfold Text.asciiLower sign
  rw [String.ofList_inj, ← Hex.decode?_eq_some_iff]
  refine ⟨decode?_of_verify, fun h => ?_⟩
  rw [Text.trim, String.toList_ofList] at h
  exact if_pos h

/-- A body passes with the signature that the same secret gives it. -/
theorem verify_sign (secret : String) (body : Bytes) :
    verify secret body (sign secret body) = .ok () := by
  unfold verify sign
  rw [String.toList_ofList, Text.trimChars_of_not_blank fun c => Hex.isBlank_of_mem_encode,
    Hex.decode?_encode]
  exact if_pos rfl

theorem verify_eq_error {e : Failure} (h : verify secret body signature = .error e) :
    e = .badSignature := by
  unfold verify at h
  split at h
  · cases h
  · cases h
    rfl

/-- A delivery passes exactly if its signature, without the blanks around it and in lower case, is
the text of 64 characters that its body is signed with; otherwise it is refused for its signature.
What passes has as many characters as that text, and each of them is a digit of base 16. -/
theorem only_own_signature_passes (secret signature : String) (body : Bytes) :
    (verify secret body signature = .ok () ↔
      Text.asciiLower (Text.trim signature) = sign secret body) ∧
    (verify secret body signature ≠ .ok () →
      verify secret body signature = .error .badSignature) ∧
    (sign secret body).length = 64 ∧
    (verify secret body signature = .ok () → (Text.trim signature).length = 64 ∧
      ∀ c ∈ (Text.trim signature).toList, (Hex.value? c).isSome) := by
  refine ⟨verify_eq_ok_iff, fun h => ?refused, length_sign secret body, fun h => ⟨?_, ?_⟩⟩
  case refused =>
    cases hv : verify secret body signature with
    | ok u => exact absurd hv h
    | error e => rw [verify_eq_error hv]
  · rw [← length_sign secret body, ← verify_eq_ok_iff.mp h, Text.asciiLower, String.length_ofList,
      List.length_map, String.length_toList]
  · exact fun c hc => Hex.isSome_value?_of_decode? (decode?_of_verify h) hc

end Webhook

end Causeway
