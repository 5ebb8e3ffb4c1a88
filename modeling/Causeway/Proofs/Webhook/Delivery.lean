import Causeway.Proofs.Webhook.Signature
import Causeway.Proofs.Wire.Scalars
import Causeway.Webhook.Delivery

/-!
# Deliveries that are read as they were sent

Envelopes, transfer events and deposit events are read as what was written
(`Envelope.ofBytes?_render`, `TransferEvent.ofTree?_toTree`, `DepositEvent.ofTree?_toTree`). A
delivery that passes comes to a callback for the transfer that it tells of (`Reports.deliver`), or
takes in the deposit that it tells of (`Announces.deliver`), and one that does not pass makes no
request (`deliver_of_forged`).
-/

namespace Causeway.Webhook

open Json (Tree NumberFree)

/-! ## Transfer events -/

namespace TransferEvent

theorem numberFree_toJson (e : TransferEvent) : e.toJson.NumberFree := by
  refine .object ?_
  simp only [List.forall_mem_cons]
  exact ⟨.string e.id, .ofText e.status, .ofDecimal e.sourceAmount, .ofDecimal e.destinationAmount,
    .ofDecimal e.rate, fun m hm => by cases hm⟩

theorem value?_toTree (e : TransferEvent) : Tree.value? 126 e.toJson.toTree = some e.toJson := by
  obtain ⟨id, status, source, destination, rate⟩ := e
  cases status <;> cases source <;> cases destination <;> cases rate <;> rfl

/-- The event as it is read: zeros have lost their signs. -/
def unsigned (e : TransferEvent) : TransferEvent :=
  { e with
    sourceAmount := e.sourceAmount.map Decimal.unsignZero
    destinationAmount := e.destinationAmount.map Decimal.unsignZero
    rate := e.rate.map Decimal.unsignZero }

theorem ofTree?_toTree (e : TransferEvent) : ofTree? e.toJson.toTree = some e.unsigned := by
  have hmembers : ofTree? e.toJson.toTree = (do
      let status ← Tree.nullable? Tree.text? (Json.ofText e.status).toTree
      let source ← Tree.nullable? Decimal.ofTree? (Json.ofDecimal e.sourceAmount).toTree
      let destination ← Tree.nullable? Decimal.ofTree? (Json.ofDecimal e.destinationAmount).toTree
      let rate ← Tree.nullable? Decimal.ofTree? (Json.ofDecimal e.rate).toTree
      pure ⟨e.id, status, source, destination, rate⟩) := rfl
  rw [hmembers, Tree.nullable?_ofText, Tree.nullable?_ofDecimal, Tree.nullable?_ofDecimal,
    Tree.nullable?_ofDecimal]
  rfl

end TransferEvent

/-! ## Deposit events -/

namespace DepositEvent

theorem numberFree_toJson (e : DepositEvent) : e.toJson.NumberFree := by
  obtain ⟨account, amount, currency, reference⟩ := e
  refine .object fun m hm => ?_
  cases currency with
  | none =>
      simp only [List.cons_append, List.nil_append, List.mem_cons, List.not_mem_nil, or_false] at hm
      rcases hm with rfl | rfl | rfl
      · exact .string account
      · exact .string amount.value.toText
      · exact .string reference
  | some currency =>
      simp only [List.cons_append, List.nil_append, List.mem_cons, List.not_mem_nil, or_false] at hm
      rcases hm with rfl | rfl | rfl | rfl
      · exact .string account
      · exact .string amount.value.toText
      · exact .string currency
      · exact .string reference

theorem value?_toTree (e : DepositEvent) : Tree.value? 126 e.toJson.toTree = some e.toJson := by
  obtain ⟨account, amount, currency, reference⟩ := e
  cases currency <;> rfl

theorem ofTree?_toTree (e : DepositEvent) : ofTree? e.toJson.toTree = some e := by
  obtain ⟨account, amount, currency, reference⟩ := e
  have hmembers : ofTree? (toJson ⟨account, amount, currency, reference⟩).toTree = (do
      let amount ← Amount.ofTree? amount.toJson.toTree
      pure ⟨account, amount, currency, reference⟩) := by
    cases currency <;> rfl
  rw [hmembers, amount.ofTree?_toTree]
  rfl

end DepositEvent

/-! ## Envelopes -/

namespace Envelope

variable {e : Envelope}

theorem numberFree_toJson (h : e.data.NumberFree) : e.toJson.NumberFree := by
  obtain ⟨type, timestamp, data⟩ := e
  refine .object fun m hm => ?_
  cases timestamp with
  | none =>
      simp only [List.cons_append, List.nil_append, List.mem_cons, List.not_mem_nil, or_false] at hm
      rcases hm with rfl | rfl
      · exact .string type
      · exact h
  | some timestamp =>
      simp only [List.cons_append, List.nil_append, List.mem_cons, List.not_mem_nil, or_false] at hm
      rcases hm with rfl | rfl | rfl
      · exact .string type
      · exact .string timestamp
      · exact h

theorem ofBytes?_render (h : e.data.NumberFree)
    (hvalue : Tree.value? 126 e.data.toTree = some e.data) :
    ofBytes? (Text.toBytes e.toJson.render) = some e := by
  have hmembers : ofTree? e.toJson.toTree =
      (Tree.value? 126 e.data.toTree).map (Envelope.mk e.type e.timestamp) := by
    obtain ⟨type, timestamp, data⟩ := e
    cases timestamp <;> exact Option.map_eq_bind.symm
  rw [ofBytes?, Json.ofBytes?_render (numberFree_toJson h), Option.bind_some, hmembers, hvalue]
  rfl

end Envelope

/-! ## Deliveries -/

/-- A delivery that passes and tells of the transfer. -/
structure Reports (secret : String) (body : Bytes) (signature transfer : String) : Prop where
  signed : verify secret body signature = .ok ()
  event : ∃ (e : Envelope) (t : TransferEvent), Envelope.ofBytes? body = some e ∧
    "transfer.".toList.isPrefixOf e.type.toList ∧ TransferEvent.ofTree? e.data.toTree = some t ∧
    t.id = transfer

/-- A delivery that passes and tells of what has arrived on an account. -/
structure Announces (secret : String) (body : Bytes) (signature : String) (e : DepositEvent) :
    Prop where
  signed : verify secret body signature = .ok ()
  event : ∃ envelope : Envelope, Envelope.ofBytes? body = some envelope ∧
    (envelope.type = "deposit.received" ∨ envelope.type = "deposit.confirmed") ∧
    DepositEvent.ofTree? envelope.data.toTree = some e

/-- What a delivery answers, by what has come of the deposit that it told of. -/
def answerOf : Except Failure Deposit → Except Failure Outcome
  | .ok d => .ok (.started d.id d.status)
  | .error (.duplicateReference reference) => .ok (.duplicate reference)
  | .error e => .error e

variable {s : Settings} {body : Bytes} {signature transfer : String}

theorem Reports.deliver (h : Reports s.webhookSecret body signature transfer) :
    deliver s body signature = (do pure (.processed (← Crossing.callback s transfer))) := by
  obtain ⟨e, t, hread, htype, ht, rfl⟩ := h.event
  have htransfer : Webhook.deliver s body signature = onTransfer s e.data := by
    unfold Webhook.deliver
    rw [h.signed, hread]
    exact if_pos htype
  rw [htransfer, onTransfer, ht]
  rfl

theorem Announces.deliver {e : DepositEvent} (h : Announces s.webhookSecret body signature e) :
    (deliver s body signature).run =
      answerOf <$> (Crossing.initiateForRailAccount s e.account e.amount e.reference).run := by
  obtain ⟨envelope, hread, htype, he⟩ := h.event
  have hother : ¬ "transfer.".toList.isPrefixOf envelope.type.toList := by
    rcases htype with htype | htype <;> rw [htype] <;> decide
  have hdeposit : Webhook.deliver s body signature = onDeposit s envelope.data := by
    unfold Webhook.deliver
    rw [h.signed, hread]
    exact (if_neg hother).trans (if_pos htype)
  rw [hdeposit, onDeposit, he]
  refine (Program.bind_assoc _ _ _).trans (congrArg (Program.bind _) (funext fun r => ?_))
  rcases r with (_ | _) | d <;> rfl

/-- A deposit event that is signed by its sender. -/
theorem announces_sign (secret : String) {type : String}
    (htype : type = "deposit.received" ∨ type = "deposit.confirmed") (timestamp : Option String)
    (e : DepositEvent) {body : Bytes}
    (hbody : body = Text.toBytes (Envelope.toJson ⟨type, timestamp, e.toJson⟩).render) :
    Announces secret body (sign secret body) e := by
  have hread : Envelope.ofBytes? body = some ⟨type, timestamp, e.toJson⟩ := by
    rw [hbody]
    exact Envelope.ofBytes?_render e.numberFree_toJson e.value?_toTree
  exact ⟨verify_sign _ _, _, hread, htype, e.ofTree?_toTree⟩

/-- A delivery that does not pass makes no request. -/
theorem deliver_of_forged (h : verify s.webhookSecret body signature ≠ .ok ()) :
    (deliver s body signature).run = .done (.error .badSignature) := by
  cases hv : verify s.webhookSecret body signature with
  | ok u => exact absurd hv h
  | error e =>
      obtain rfl := verify_eq_error hv
      unfold Webhook.deliver
      rw [hv]
      rfl

/-- A signed transfer event leads to the callback for its transfer. -/
theorem deliver_transfer (s : Settings) {type : String}
    (htype : "transfer.".toList.isPrefixOf type.toList) (timestamp : Option String)
    (e : TransferEvent) {body : Bytes}
    (hbody : body = Text.toBytes (Envelope.toJson ⟨type, timestamp, e.toJson⟩).render) :
    deliver s body (sign s.webhookSecret body) =
      (do pure (.processed (← Crossing.callback s e.id))) := by
  have hread : Envelope.ofBytes? body = some ⟨type, timestamp, e.toJson⟩ := by
    rw [hbody]
    exact Envelope.ofBytes?_render e.numberFree_toJson e.value?_toTree
  exact Reports.deliver ⟨verify_sign _ _, _, _, hread, htype, e.ofTree?_toTree, rfl⟩

end Causeway.Webhook
