import Causeway.Proofs.Decimal
import Causeway.Proofs.Decimal.Text
import Causeway.Proofs.Instant.Text
import Causeway.Proofs.Json.Text
import Causeway.Proofs.Uuid
import Causeway.Wire.Scalars

/-!
# Scalars and members that are read back

A scalar is read from the tree of what is written for it, an absent one from the null that stands in
its place, and the members of a record are found under the names that they were written with
(`members?_toTree`).
-/

namespace Causeway

open Json (NumberFree Tree)

/-! ## Scalars -/

theorem Decimal.ofTree?_toTree (x : Decimal) : ofTree? x.toJson.toTree = some x.unsignZero := by
  rw [toJson, Json.toTree, ofTree?, Option.bind_some, x.ofText?_toText]

def Decimal.IsNegativeZero (x : Decimal) : Prop := x.magnitude = 0 ∧ x.negative = true

instance (x : Decimal) : Decidable x.IsNegativeZero := inferInstanceAs (Decidable (_ ∧ _))

theorem Decimal.unsignZero_eq {x : Decimal} (h : ¬ x.IsNegativeZero) : x.unsignZero = x := by
  unfold unsignZero
  split
  · rename_i hzero
    have hnegative : x.negative = false := by simpa [IsNegativeZero, hzero] using h
    rw [← hnegative]
  · rfl

theorem Decimal.map_unsignZero {o : Option Decimal} (h : ∀ x ∈ o, ¬ x.IsNegativeZero) :
    o.map unsignZero = o := by
  cases o with
  | none => rfl
  | some x => rw [Option.map_some, unsignZero_eq (h x rfl)]

/-- An amount is greater than zero, so it has no sign to lose. -/
theorem Amount.ofTree?_toTree (a : Amount) : ofTree? a.toJson.toTree = some a := by
  show (Decimal.ofTree? a.value.toJson.toTree).bind ofDecimal? = some a
  rw [Decimal.ofTree?_toTree, Decimal.unsignZero_of_pos a.pos]
  exact ofDecimal?_eq_some_iff.mpr rfl

def Instant.InLeapSecond (t : Instant) : Prop := 1000000000 ≤ t.nano

instance (t : Instant) : Decidable t.InLeapSecond := inferInstanceAs (Decidable (_ ≤ _))

theorem Instant.ofTree?_toTree (t : Instant) (h : ¬ t.InLeapSecond) :
    ofTree? t.toJson.toTree = some t := by
  rw [toJson, Json.toTree, ofTree?, Tree.text?, Option.bind_some,
    t.ofText?_toText (Nat.lt_of_not_le h)]

theorem Uuid.ofTree?_toTree (u : Uuid) : ofTree? u.toJson.toTree = some u := by
  rw [toJson, Json.toTree, ofTree?, Tree.text?, Option.bind_some, u.ofText?_toText]

theorem Deposit.Status.ofTree?_name (status : Status) :
    ofTree? (Json.string status.name).toTree = some status := by
  cases status <;> rfl

/-! ## Absent scalars -/

namespace Json

theorem NumberFree.ofText : ∀ s : Option String, (Json.ofText s).NumberFree
  | none => .null
  | some s => .string s

theorem NumberFree.ofDecimal : ∀ x : Option Decimal, (Json.ofDecimal x).NumberFree
  | none => .null
  | some x => .string x.toText

theorem NumberFree.ofInstant : ∀ t : Option Instant, (Json.ofInstant t).NumberFree
  | none => .null
  | some t => .string t.toText

namespace Tree

theorem nullable?_ofText : ∀ s : Option String, nullable? text? (Json.ofText s).toTree = some s
  | none => rfl
  | some _ => rfl

theorem nullable?_ofDecimal : ∀ x : Option Decimal,
    nullable? Decimal.ofTree? (Json.ofDecimal x).toTree = some (x.map Decimal.unsignZero)
  | none => rfl
  | some x => congrArg (Option.map some) x.ofTree?_toTree

theorem nullable?_ofInstant : ∀ {t : Option Instant}, (∀ i ∈ t, ¬ i.InLeapSecond) →
    nullable? Instant.ofTree? (Json.ofInstant t).toTree = some t
  | none, _ => rfl
  | some i, h => congrArg (Option.map some) (i.ofTree?_toTree (h i rfl))

/-! ## Members -/

/-- The slots of a written record. -/
def slot (ms : List (String × Json)) (name : String) : Slot :=
  match ms.lookup name with
  | some j => .given j.toTree
  | none => .absent

variable {ms : List (String × Json)} {name : String}

theorem lookup_membersToTree (ms : List (String × Json)) (name : String) :
    (membersToTree ms).lookup (some name) = (ms.lookup name).map toTree := by
  induction ms with
  | nil => rfl
  | cons m ms ih =>
      obtain ⟨k, j⟩ := m
      rw [membersToTree, List.lookup_cons, List.lookup_cons, ih]
      by_cases h : name = k
      · simp [h]
      · simp [beq_eq_false_iff_ne.mpr h]

theorem countP_membersToTree (ms : List (String × Json)) (name : String) :
    (membersToTree ms).countP (·.1 == some name) = (ms.map Prod.fst).count name := by
  induction ms with
  | nil => rfl
  | cons m ms ih =>
      obtain ⟨k, j⟩ := m
      rw [membersToTree, List.countP_cons, List.map_cons, List.count_cons, ih]
      simp

theorem isSome_membersToTree (ms : List (String × Json)) :
    (membersToTree ms).all (·.1.isSome) = true := by
  induction ms with
  | nil => rfl
  | cons m ms ih => simpa [membersToTree] using ih

/-- A record that names no member twice is taken apart into what was written. -/
theorem members?_toTree (h : (ms.map Prod.fst).Nodup) (names : List String) :
    members? names (Json.object ms).toTree = some (slot ms) := by
  have honce : names.all (fun name => (membersToTree ms).countP (·.1 == some name) ≤ 1) = true := by
    refine List.all_eq_true.mpr fun name _ => decide_eq_true ?_
    rw [countP_membersToTree]
    exact List.nodup_iff_count.mp h name
  rw [toTree, members?, isSome_membersToTree, honce]
  refine congrArg some (funext fun name => ?_)
  rw [slot, lookup_membersToTree]
  cases ms.lookup name <;> rfl

theorem slot_of_mem {j : Json} (h : (ms.map Prod.fst).Nodup) (hmem : (name, j) ∈ ms) :
    slot ms name = .given j.toTree := by
  have hlookup : ms.lookup name = some j := by
    induction ms with
    | nil => cases hmem
    | cons m ms ih =>
        obtain ⟨k, i⟩ := m
        rw [List.map_cons, List.nodup_cons] at h
        rcases List.mem_cons.mp hmem with heq | hrest
        · cases heq
          simp
        · have hne : name ≠ k := by
            rintro rfl
            exact h.1 (List.mem_map.mpr ⟨_, hrest, rfl⟩)
          rw [List.lookup_cons, beq_eq_false_iff_ne.mpr hne]
          exact ih h.2 hrest
  rw [slot, hlookup]

theorem required_bind {α β : Type} {read : Tree → Option α} {f : α → Option β} {j : Json} {a : α}
    (h : (ms.map Prod.fst).Nodup) (hmem : (name, j) ∈ ms) (hread : read j.toTree = some a) :
    ((slot ms name).required read >>= f) = f a := by
  rw [slot_of_mem h hmem, Slot.required, hread, Option.bind_eq_bind, Option.bind_some]

theorem optional_bind {α β : Type} {read : Tree → Option α} {f : Option α → Option β} {j : Json}
    {a : Option α} (h : (ms.map Prod.fst).Nodup) (hmem : (name, j) ∈ ms)
    (hread : nullable? read j.toTree = some a) : ((slot ms name).optional read >>= f) = f a := by
  rw [slot_of_mem h hmem, Slot.optional, hread, Option.bind_eq_bind, Option.bind_some]

theorem text?_toTree (s : String) : text? (Json.string s).toTree = some s := rfl

end Tree

end Json

end Causeway
