import Causeway.Proofs.Webhook.Delivery
import Causeway.Proofs.World.Run
import Causeway.Settings

/-!
# What of a delivery is trusted

Of an event of a transfer only the id is used: two deliveries that pass and name the same transfer
are the same operation, whatever else they say (`only_id_is_trusted`). Of a delivery that does not
pass nothing is used.
-/

namespace Causeway.Webhook

variable {s : Settings} {body body' : Bytes} {signature signature' transfer : String}

/-- What comes of a callback, told as what comes of a delivery. -/
def toldOf (r : World.Outcome (Except Failure Crossing.CallbackOutcome)) :
    World.Outcome (Except Failure Outcome) :=
  (r.1.map (·.map Outcome.processed), r.2)

theorem run_of_reports (h : Reports s.webhookSecret body signature transfer) (w : World) :
    w.run (deliver s body signature).run = toldOf (w.run (Crossing.callback s transfer).run) := by
  rw [h.deliver]
  rcases hr : w.run (Crossing.callback s transfer).run with ⟨o | e | outcome, w'⟩
  · exact (World.run_bind w (Crossing.callback s transfer).run _).trans (by rw [hr]; rfl)
  · exact World.run_seq_of_error hr
  · exact World.run_seq hr

theorem run_of_forged (h : verify s.webhookSecret body signature ≠ .ok ()) (w : World) :
    w.run (deliver s body signature).run = (.ok (.error .badSignature), w) := by
  rw [deliver_of_forged h]
  rfl

/-- Two deliveries that pass and whose events name the same transfer are one and the same operation,
also among others: in every world both do what the callback for that transfer does there. A delivery
that does not pass is refused for its signature and leaves the world as it was. -/
theorem only_id_is_trusted (h : Reports s.webhookSecret body signature transfer)
    (h' : Reports s.webhookSecret body' signature' transfer) :
    deliver s body signature = deliver s body' signature' ∧
    (∀ w : World,
      w.run (deliver s body signature).run = w.run (deliver s body' signature').run ∧
      w.run (deliver s body signature).run = toldOf (w.run (Crossing.callback s transfer).run)) ∧
    ∀ (forged : Bytes) (claimed : String), verify s.webhookSecret forged claimed ≠ .ok () →
      (deliver s forged claimed).run = .done (.error .badSignature) ∧
      ∀ w : World, w.run (deliver s forged claimed).run = (.ok (.error .badSignature), w) := by
  have hsame : deliver s body signature = deliver s body' signature' :=
    h.deliver.trans h'.deliver.symm
  refine ⟨hsame, fun w => ⟨by rw [hsame], run_of_reports h w⟩, fun forged claimed hforged => ?_⟩
  exact ⟨deliver_of_forged hforged, run_of_forged hforged⟩

namespace Sample

/-- Two envelopes that agree in the id of their transfer only. -/
def completed : Envelope where
  type := "transfer.completed"
  timestamp := some "2026-03-14T10:00:00Z"
  data := .object [("id", .string "tr_1"), ("status", .string "completed"),
    ("destAmount", .string "99.5"), ("fxRate", .string "1"), ("memo", .array [.bool true])]

def failed : Envelope where
  type := "transfer."
  timestamp := none
  data := .object [("status", .string "failed"), ("id", .string "tr_1"), ("sourceAmount", .null)]

def bodyOf (e : Envelope) : Bytes := Text.toBytes e.toJson.render

def signatureOf (e : Envelope) : String := sign Settings.standard.webhookSecret (bodyOf e)

theorem read_completed : Envelope.ofBytes? (bodyOf completed) = some completed := by
  refine Envelope.ofBytes?_render (.object fun m hm => ?_) rfl
  simp only [List.mem_cons, List.not_mem_nil, or_false] at hm
  rcases hm with rfl | rfl | rfl | rfl | rfl
  · exact .string _
  · exact .string _
  · exact .string _
  · exact .string _
  · exact .array (by rintro j (_ | ⟨_, ⟨⟩⟩); exact .bool true)

theorem read_failed : Envelope.ofBytes? (bodyOf failed) = some failed := by
  refine Envelope.ofBytes?_render (.object fun m hm => ?_) rfl
  simp only [List.mem_cons, List.not_mem_nil, or_false] at hm
  rcases hm with rfl | rfl | rfl
  · exact .string _
  · exact .string _
  · exact .null

theorem reports_completed :
    Reports Settings.standard.webhookSecret (bodyOf completed) (signatureOf completed) "tr_1" where
  signed := verify_sign _ _
  event := ⟨completed, _, read_completed, by decide, rfl, rfl⟩

theorem reports_failed :
    Reports Settings.standard.webhookSecret (bodyOf failed) (signatureOf failed) "tr_1" where
  signed := verify_sign _ _
  event := ⟨failed, _, read_failed, by decide, rfl, rfl⟩

theorem bodyOf_ne : bodyOf completed ≠ bodyOf failed := by
  intro h
  have hsame : some completed = some failed := by rw [← read_completed, h, read_failed]
  exact absurd (congrArg Envelope.type (Option.some.inj hsame)) (by decide)

theorem not_verify_empty (secret : String) (body : Bytes) : verify secret body "" ≠ .ok () := by
  intro h
  have hlength := congrArg String.length (verify_eq_ok_iff.mp h)
  rw [length_sign] at hlength
  exact absurd hlength (by decide)

/-- The first says that the transfer is complete and the second that it has failed; the third has
no signature. -/
theorem id_alone_is_trusted :
    Reports Settings.standard.webhookSecret (bodyOf completed) (signatureOf completed) "tr_1" ∧
    Reports Settings.standard.webhookSecret (bodyOf failed) (signatureOf failed) "tr_1" ∧
    bodyOf completed ≠ bodyOf failed ∧
    deliver .standard (bodyOf completed) (signatureOf completed) =
      deliver .standard (bodyOf failed) (signatureOf failed) ∧
    (deliver .standard (bodyOf completed) "").run = .done (.error .badSignature) := by
  obtain ⟨hsame, -, hforged⟩ := only_id_is_trusted reports_completed reports_failed
  exact ⟨reports_completed, reports_failed, bodyOf_ne, hsame,
    (hforged _ _ (not_verify_empty _ _)).1⟩

end Sample

end Causeway.Webhook
