import Causeway.Crossing.Sweep
import Causeway.Proofs.Program.Rules
import Causeway.Webhook.Delivery
import Mathlib.Logic.Relation

/-!
# Operations side by side

A system is a world with the operations that have been started in it. They take turns in any order,
one request a turn. Between two turns transfers settle, faults and delays get in the way, accounts
are opened and the timer moves. What each operation does by itself is what every run of a system
does (`Run.obeys`).
-/

namespace Causeway.Crossing

inductive Operation where
  | initiate (user : Uuid) (railAccount : String) (amount : Amount) (reference : String)
  | initiateForRailAccount (railAccount : String) (amount : Amount) (reference : String)
  | callback (transfer : String)
  | fund (d : Deposit)
  | cancel (id : Uuid)
  | sweep (now : Instant)
  | deliver (body : Bytes) (signature : String)

inductive Result where
  | deposit (r : Except Failure Deposit)
  | callback (r : Except Failure CallbackOutcome)
  | sweep (r : Except Failure Report)
  | delivery (r : Except Failure Webhook.Outcome)

def Operation.program (s : Settings) : Operation → Program Result
  | initiate user railAccount amount reference =>
    .deposit <$> (Crossing.initiate s user railAccount amount reference).run
  | initiateForRailAccount railAccount amount reference =>
    .deposit <$> (Crossing.initiateForRailAccount s railAccount amount reference).run
  | callback transfer => .callback <$> (Crossing.callback s transfer).run
  | fund d => .deposit <$> (Crossing.fund s d).run
  | cancel id => .deposit <$> (Crossing.cancel s id).run
  | sweep now => .sweep <$> (Crossing.sweep s now).run
  | deliver body signature => .delivery <$> (Webhook.deliver s body signature).run

/-- An operation that has been started and what is left of it. -/
structure Activity where
  operation : Operation
  rest : Program Result

/-- A request and the world in which it was answered. -/
structure Exchange where
  before : World
  request : Request

def Exchange.answer (x : Exchange) : Except Overflow x.request.Answer :=
  (x.before.perform x.request).1

structure System where
  world : World
  running : List Activity := []
  /-- Latest first. -/
  history : List Exchange := []

namespace System

def start (σ : System) (s : Settings) (op : Operation) : System :=
  { σ with running := σ.running ++ [⟨op, op.program s⟩] }

/-- What a program does with an answer; an overflow ends it. -/
def resume {r : Request} (k : r.Answer → Program Result) : Except Overflow r.Answer → Program Result
  | .ok a => k a
  | .error o => .crash o

/-- The request of one of the operations is answered; `before` and `behind` are the others. -/
def turn (σ : System) (before behind : List Activity) (op : Operation) (r : Request)
    (k : r.Answer → Program Result) : System where
  world := (σ.world.perform r).2
  running := before ++ ⟨op, resume k (σ.world.perform r).1⟩ :: behind
  history := ⟨σ.world, r⟩ :: σ.history

end System

/-- What happens to the world without any operation's doing. -/
inductive Disturbance (w : World) : World → Prop where
  | timer (t : Retry.Timer) : Disturbance w { w with timer := t }
  /-- New faults and delays, but no other writer. -/
  | script (c : Script) (h : c.race = none) : Disturbance w { w with script := c }
  | railFailures (creates lists : List Rail.ApiError) :
      Disturbance w
        { w with rail := { w.rail with createFailures := creates, listFailures := lists } }
  | brokerageFailures (failures : List Failure) :
      Disturbance w { w with brokerage := { w.brokerage with failures } }
  | complete (transfer : String) : Disturbance w (w.completeTransfer transfer).2
  | setState (transfer : String) (state : Rail.State) :
      Disturbance w (w.setTransferState transfer state).2
  /-- Accounts are opened, not replaced. -/
  | addAccount (a : VirtualAccount) (h : w.accounts.get? a.id = none) :
      Disturbance w (w.addAccount a)
  | addUser (u : User) : Disturbance w (w.addUser u)

inductive Step (s : Settings) (σ : System) : System → Prop where
  | start (op : Operation) : Step s σ (σ.start s op)
  | turn {before behind : List Activity} {op : Operation} {r : Request}
      {k : r.Answer → Program Result} (h : σ.running = before ++ ⟨op, .call r k⟩ :: behind) :
      Step s σ (σ.turn before behind op r k)
  | disturb {w : World} (h : Disturbance σ.world w) : Step s σ { σ with world := w }

/-- Any number of steps in any order. -/
abbrev Run (s : Settings) : System → System → Prop := Relation.ReflTransGen (Step s)

variable {s : Settings} {σ σ' : System}

theorem System.getElem?_start (σ : System) (op : Operation) (i : Nat) :
    (σ.start s op).running[i]? =
      if i = σ.running.length then some ⟨op, op.program s⟩ else σ.running[i]? := by
  rcases Nat.lt_trichotomy i σ.running.length with h | rfl | h
  · rw [start, List.getElem?_append_left h, if_neg (Nat.ne_of_lt h)]
  · simp [start]
  · have hbeyond : σ.running.length + 1 ≤ i := h
    rw [if_neg (Nat.ne_of_gt h), List.getElem?_eq_none (Nat.le_of_lt h),
      List.getElem?_eq_none (by simpa [start] using hbeyond)]

section Turns

variable {before behind : List Activity} {op : Operation} {r : Request}
  {k : r.Answer → Program Result} (hr : σ.running = before ++ ⟨op, .call r k⟩ :: behind)
  {a : Activity}

include hr

theorem System.mem_turn (ha : a ∈ (σ.turn before behind op r k).running) :
    a = ⟨op, resume k (σ.world.perform r).1⟩ ∨ a ∈ σ.running := by
  simp only [turn, List.mem_append, List.mem_cons] at ha
  rw [hr, List.mem_append, List.mem_cons]
  rcases ha with ha | ha | ha
  · exact .inr (.inl ha)
  · exact .inl ha
  · exact .inr (.inr (.inr ha))

theorem System.mem_running (ha : a ∈ σ.running) :
    a = ⟨op, .call r k⟩ ∨ a ∈ (σ.turn before behind op r k).running := by
  simp only [turn, List.mem_append, List.mem_cons]
  rw [hr, List.mem_append, List.mem_cons] at ha
  rcases ha with ha | ha | ha
  · exact .inr (.inl ha)
  · exact .inl ha
  · exact .inr (.inr (.inr ha))

theorem System.getElem?_turn (i : Nat) : (σ.turn before behind op r k).running[i]? =
    if i = before.length then some ⟨op, resume k (σ.world.perform r).1⟩ else σ.running[i]? := by
  rw [hr]
  rcases Nat.lt_trichotomy i before.length with h | rfl | h
  · rw [turn, List.getElem?_append_left h, List.getElem?_append_left h, if_neg (Nat.ne_of_lt h)]
  · simp [turn]
  · obtain ⟨n, rfl⟩ : ∃ n, i = before.length + (n + 1) := ⟨i - before.length - 1, by omega⟩
    rw [if_neg (by omega), turn]
    simp [List.getElem?_append_right]

theorem System.length_turn :
    (σ.turn before behind op r k).running.length = σ.running.length := by
  simp [turn, hr]

end Turns

/-! ## Systems that keep to rules -/

/-- Whatever else happens, each operation goes on making permitted requests only. -/
def System.Obeys (R : Rules) (σ : System) : Prop :=
  ∀ a ∈ σ.running, R.Keeps a.rest (fun _ _ => True) σ.world

variable {R : Rules}

theorem System.Obeys.start (h : σ.Obeys R) {op : Operation}
    (hop : R.Keeps (op.program s) (fun _ _ => True) σ.world) : (σ.start s op).Obeys R := by
  intro a ha
  rcases List.mem_append.mp ha with ha | ha
  · exact h a ha
  · obtain rfl := List.mem_singleton.mp ha
    exact hop

theorem System.Obeys.permits (h : σ.Obeys R) {before behind : List Activity} {op : Operation}
    {r : Request} {k : r.Answer → Program Result}
    (hr : σ.running = before ++ ⟨op, .call r k⟩ :: behind) (ha : R.assumes σ.world r) :
    R.permits σ.world r :=
  have hmem : ⟨op, .call r k⟩ ∈ σ.running := by rw [hr]; simp
  (h _ hmem σ.world (R.refl _) ha).1

theorem System.Obeys.turn (h : σ.Obeys R) (hR : R.Shared) {before behind : List Activity}
    {op : Operation} {r : Request} {k : r.Answer → Program Result}
    (hr : σ.running = before ++ ⟨op, .call r k⟩ :: behind) (ha : R.assumes σ.world r) :
    (σ.turn before behind op r k).Obeys R := by
  have hmem : ⟨op, .call r k⟩ ∈ σ.running := by rw [hr]; simp
  obtain ⟨hperm, hnext⟩ := h _ hmem σ.world (R.refl _) ha
  intro a hmem
  rcases System.mem_turn hr hmem with rfl | hmem
  · cases hres : (σ.world.perform r).1 with
    | ok a => exact hnext a hres
    | error o => trivial
  · exact (h a hmem).later (fun _ _ _ _ _ => trivial) (hR ha hperm)

theorem System.Obeys.disturb (h : σ.Obeys R) {w : World} (hw : R.rely σ.world w) :
    System.Obeys R { σ with world := w } :=
  fun a ha => (h a ha).later (fun _ _ _ _ _ => trivial) hw

end Causeway.Crossing
