import Causeway.Proofs.Text
import Causeway.Uuid
import Mathlib.Algebra.Group.Nat.Defs

/-!
# Identifiers by their texts

Different identifiers have different texts, in both forms, and the grouped text is read as the
identifier that it was written for.
-/

namespace Causeway

namespace Hex

theorem digit_inj {n m : Nat} (hn : n < 16) (hm : m < 16) (h : digit n = digit m) : n = m := by
  have hall : ∀ n < 16, ∀ m < 16, digit n = digit m → n = m := by decide
  exact hall n hn m hm h

theorem length_digits (width n : Nat) : (digits width n).length = width := by
  induction width generalizing n with
  | zero => rfl
  | succ width ih => simp [digits, ih]

/-- A fixed width tells all numbers apart that fit into it. -/
theorem digits_inj {width n m : Nat} (hn : n < 16 ^ width) (hm : m < 16 ^ width)
    (h : digits width n = digits width m) : n = m := by
  induction width generalizing n m with
  | zero => omega
  | succ width ih =>
      have hlen : (digits width (n / 16)).length = (digits width (m / 16)).length := by
        rw [length_digits, length_digits]
      obtain ⟨hinit, hlast⟩ := List.append_inj h hlen
      have hmod : n % 16 = m % 16 := by
        refine digit_inj (Nat.mod_lt _ (by decide)) (Nat.mod_lt _ (by decide)) ?_
        exact List.singleton_inj.mp hlast
      have hdiv : n / 16 = m / 16 := by
        rw [Nat.pow_succ] at hn hm
        exact ih (by omega) (by omega) hinit
      omega

/-- Digits of a fixed width are read as the number that they were written for. -/
theorem ofDigits?_digits {width n : Nat} (h : n < 16 ^ width) :
    ofDigits? (digits width n) = some n := by
  induction width generalizing n with
  | zero =>
      obtain rfl : n = 0 := by omega
      rfl
  | succ width ih =>
      rw [Nat.pow_succ] at h
      have hinit : ofDigits? (digits width (n / 16)) = some (n / 16) := ih (by omega)
      unfold ofDigits? at hinit ⊢
      rw [digits, List.foldlM_append, hinit]
      simp only [List.foldlM_cons, List.foldlM_nil, value?_digit _ (Nat.mod_lt n (by decide)),
        Option.bind_eq_bind, Option.bind_some, Option.map_some]
      exact congrArg some (Nat.div_add_mod n 16)

end Hex

namespace Uuid

theorem digits_inj {u v : Uuid} (h : u.digits = v.digits) : u = v := by
  have hn : u.bits.toNat = v.bits.toNat := Hex.digits_inj u.bits.isLt v.bits.isLt h
  exact congrArg Uuid.mk (BitVec.eq_of_toNat_eq hn)

theorem toCompact_inj {u v : Uuid} (h : u.toCompact = v.toCompact) : u = v :=
  digits_inj (String.ofList_injective h)

theorem eq_of_take_drop {α : Type} {as bs : List α} (n : Nat) (ht : as.take n = bs.take n)
    (hd : as.drop n = bs.drop n) : as = bs := by
  rw [← List.take_append_drop n as, ht, hd, List.take_append_drop]

theorem toText_inj {u v : Uuid} (h : u.toText = v.toText) : u = v := by
  have hc : u.toChars = v.toChars := String.ofList_injective h
  have hu : u.digits.length = 32 := Hex.length_digits 32 _
  have hv : v.digits.length = 32 := Hex.length_digits 32 _
  simp only [toChars, List.append_assoc, List.cons_append] at hc
  -- The groups are as long in both texts, so each group of one is the same group of the other.
  obtain ⟨h₁, hc⟩ := List.append_inj hc (by simp [hu, hv])
  obtain ⟨h₂, hc⟩ := List.append_inj (List.cons.inj hc).2 (by simp [hu, hv])
  obtain ⟨h₃, hc⟩ := List.append_inj (List.cons.inj hc).2 (by simp [hu, hv])
  obtain ⟨h₄, hc⟩ := List.append_inj (List.cons.inj hc).2 (by simp [hu, hv])
  have h₅ := (List.cons.inj hc).2
  refine digits_inj (eq_of_take_drop 8 h₁ (eq_of_take_drop 4 h₂ ?_))
  simp only [List.drop_drop]
  refine eq_of_take_drop 4 h₃ (eq_of_take_drop 4 ?_ ?_)
  · simp only [List.drop_drop]; exact h₄
  · simp only [List.drop_drop]; exact h₅

/-! ## Reading -/

theorem ofDigits?_digits (u : Uuid) : ofDigits? u.digits = some u := by
  have hlen : u.digits.length = 32 := Hex.length_digits 32 _
  have hbits : Hex.ofDigits? u.digits = some u.bits.toNat := Hex.ofDigits?_digits u.bits.isLt
  rw [ofDigits?, if_pos hlen, hbits, Option.map_some, ofNat, BitVec.ofNat_toNat, BitVec.setWidth_eq]

/-- The digits stand in five groups. -/
theorem exists_groups (u : Uuid) : ∃ a b c d e : List Char, a.length = 8 ∧ b.length = 4 ∧
    c.length = 4 ∧ d.length = 4 ∧ e.length = 12 ∧ u.digits = a ++ (b ++ (c ++ (d ++ e))) ∧
    u.toChars = a ++ '-' :: (b ++ '-' :: (c ++ '-' :: (d ++ '-' :: e))) := by
  have hlen : u.digits.length = 32 := Hex.length_digits 32 _
  refine ⟨u.digits.take 8, (u.digits.drop 8).take 4, (u.digits.drop 12).take 4,
    (u.digits.drop 16).take 4, u.digits.drop 20, ?_, ?_, ?_, ?_, ?_, ?_, ?_⟩
  · simp [hlen]
  · simp [hlen]
  · simp [hlen]
  · simp [hlen]
  · simp [hlen]
  · have hdrop : ∀ n, u.digits.drop n = (u.digits.drop n).take 4 ++ u.digits.drop (n + 4) := by
      intro n
      rw [← List.drop_drop, List.take_append_drop]
    rw [← hdrop 16, ← hdrop 12, ← hdrop 8, List.take_append_drop]
  · simp [toChars]

theorem ofChars?_toChars (u : Uuid) : ofChars? u.toChars = some u := by
  obtain ⟨a, b, c, d, e, ha, hb, hc, hd, he, hdigits, hchars⟩ := u.exists_groups
  have hlen : u.toChars.length = 36 := by
    rw [hchars]
    simp [ha, hb, hc, hd, he]
  have hread := u.ofDigits?_digits
  rw [ofChars?, if_neg (by omega), if_neg (by omega), if_neg (by omega), ofGroups?]
  have hmarks : [8, 13, 18, 23].all (u.toChars[·]? = some '-') := by
    rw [hchars]
    simp [List.getElem?_append, List.getElem?_cons, ha, hb, hc, hd]
  have hjoin : u.toChars.take 8 ++ (u.toChars.drop 9).take 4 ++ (u.toChars.drop 14).take 4 ++
      (u.toChars.drop 19).take 4 ++ u.toChars.drop 24 = u.digits := by
    rw [hchars, hdigits]
    simp [List.drop_append, List.drop_eq_nil_of_le, ha, hb, hc, hd]
  rw [if_pos ⟨hlen, hmarks⟩, hjoin, hread]

theorem ofText?_toText (u : Uuid) : ofText? u.toText = some u := by
  rw [ofText?, toText, String.toList_ofList, ofChars?_toChars]

end Uuid

end Causeway
