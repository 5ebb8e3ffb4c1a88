import Causeway.Proofs.Crossing.Solo

/-!
# Operations in sequence

In a serial run an operation is started only once those before it have ended, though the world may
be disturbed at any time. Such a run keeps to rules that say nothing of other operations, since no
other is in progress (`SerialRun.permitted`).
-/

namespace Causeway.Crossing

variable {s : Settings} {σ σ' : System} {R : Rules}

def SerialStep (s : Settings) (σ σ' : System) : Prop :=
  Step s σ σ' ∧ (σ.running.length < σ'.running.length → ∀ a ∈ σ.running, a.ended)

abbrev SerialRun (s : Settings) : System → System → Prop := Relation.ReflTransGen (SerialStep s)

theorem SerialRun.run (h : SerialRun s σ σ') : Run s σ σ' :=
  Relation.ReflTransGen.mono (fun _ _ => And.left) _ _ h

theorem serial_alone (hended : ∀ a ∈ σ.running, a.ended) (op : Operation) :
    SerialRun s σ (σ.alone s op) := by
  refine .head ⟨.start op, fun _ => hended⟩ (reach_play (fun τ before op r k h => ⟨.turn h, ?_⟩)
    σ.running op (op.program s) σ.world σ.history)
  intro hlt
  simp [System.turn, h] at hlt

/-- No operation but the one that was started last is in progress. -/
def System.Serial (σ : System) : Prop := ∀ a ∈ σ.running.dropLast, a.ended

theorem System.Serial.turn (h : σ.Serial) {before behind : List Activity} {op : Operation}
    {r : Request} {k : r.Answer → Program Result}
    (hr : σ.running = before ++ ⟨op, .call r k⟩ :: behind) :
    behind = [] ∧ ∀ a ∈ before, a.ended := by
  unfold System.Serial at h
  cases behind with
  | nil =>
      rw [hr, List.dropLast_concat] at h
      exact ⟨rfl, h⟩
  | cons b bs =>
      rw [hr, List.dropLast_append_cons] at h
      exact nomatch h ⟨op, .call r k⟩ (by simp)

theorem SerialStep.serial (h : SerialStep s σ σ') (hσ : σ.Serial) : σ'.Serial := by
  obtain ⟨hstep, hended⟩ := h
  cases hstep with
  | start op =>
      intro a ha
      rw [System.start, List.dropLast_concat] at ha
      exact hended (by simp [System.start]) a ha
  | disturb hd => exact hσ
  | turn hr =>
      obtain ⟨rfl, hbefore⟩ := hσ.turn hr
      intro a ha
      rw [System.turn, List.dropLast_concat] at ha
      exact hbefore a ha

theorem keeps_of_ended {a : Activity} (h : a.ended) (w : World) :
    R.Keeps a.rest (fun _ _ => True) w := by
  unfold Activity.ended at h
  split at h
  · cases h
  · rename_i hrest
    cases hp : a.rest with
    | done r => trivial
    | crash o => trivial
    | call r k => exact (hrest r k hp).elim

theorem SerialStep.obeys (h : SerialStep s σ σ') (hσ : σ.Serial) (ho : σ.Obeys R)
    (hop : ∀ (op : Operation) w, R.Keeps (op.program s) (fun _ _ => True) w)
    (hrely : ∀ w w', Disturbance w w' → R.rely w w') (hassumes : ∀ r, R.assumes σ.world r) :
    σ'.Obeys R := by
  obtain ⟨hstep, -⟩ := h
  cases hstep with
  | start op => exact ho.start (hop op _)
  | disturb hd => exact ho.disturb (hrely _ _ hd)
  | @turn before behind op r k hr =>
      obtain ⟨rfl, hbefore⟩ := hσ.turn hr
      have hmem : ⟨op, .call r k⟩ ∈ σ.running := by rw [hr]; simp
      obtain ⟨-, hnext⟩ := ho _ hmem σ.world (R.refl _) (hassumes r)
      intro a ha
      rcases List.mem_append.mp ha with ha | ha
      · exact keeps_of_ended (hbefore a ha) _
      · obtain rfl := List.mem_singleton.mp ha
        cases hres : (σ.world.perform r).1 with
        | ok a => exact hnext a hres
        | error o => trivial

/-- What each operation keeps to by itself, every exchange of a serial run keeps to. -/
theorem SerialRun.permitted (h : SerialRun s σ σ') (hσ : σ.Serial) (ho : σ.Obeys R)
    (hop : ∀ (op : Operation) w, R.Keeps (op.program s) (fun _ _ => True) w)
    (hrely : ∀ w w', Disturbance w w' → R.rely w w')
    (hassumes : ∀ τ, Run s σ τ → ∀ r, R.assumes τ.world r) :
    ∀ x ∈ σ'.since σ, R.permits x.before x.request := by
  have hobeys : ∀ τ, SerialRun s σ τ → τ.Serial ∧ τ.Obeys R := by
    intro τ hτ
    induction hτ with
    | refl => exact ⟨hσ, ho⟩
    | tail hbefore hstep ih =>
        obtain ⟨hserial, ho⟩ := ih
        have hassumes := hassumes _ (SerialRun.run hbefore)
        exact ⟨hstep.serial hserial, hstep.obeys hserial ho hop hrely hassumes⟩
  intro x hx
  obtain ⟨τ, before, behind, op, k, hτ, hr, hw⟩ := turn_of_mem (fun _ _ => And.left) h hx
  rw [← hw]
  exact (hobeys τ hτ).2.permits hr (hassumes τ (SerialRun.run hτ) _)

end Causeway.Crossing
