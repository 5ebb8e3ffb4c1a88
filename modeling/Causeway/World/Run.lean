import Causeway.World.Perform

/-!
# Running programs

`World.run` runs a program from one request to the next with nothing in between. `World.runPair`
runs two on one timer: the first goes on until it waits, then the second, and whoever's wait ends
first is next.
-/

namespace Causeway.World

def run {α : Type} : Program α → World → Outcome α
  | .done a, w => (.ok a, w)
  | .crash o, w => (.error o, w)
  | .call r k, w =>
    match w.perform r with
    | (.ok a, w) => run (k a) w
    | (.error o, w) => (.error o, w)

/-- Runs a program that no abort can interrupt. -/
def runUndisturbed {α : Type} (p : Program α) (w : World) : Outcome α :=
  let (r, w') := run p { w with timer := { w.timer with deadline := none, cancelAt := none } }
  (r, { w' with timer := { w.timer with now := w'.timer.now } })

/-! ## Two programs on one timer -/

/-- The end of the wait that a request asks for, if it has to wait, and its answer then. -/
def wait? (w : World) : (r : Request) → Option (Nat × r.Answer)
  | .pause ms =>
    let (wake, elapsed) := w.timer.wake ms
    if w.timer.now < wake then some (wake, elapsed) else none
  | _ => none

/-- A program that goes on at an instant of the timer. -/
structure Sleeper (α : Type) where
  wake : Nat
  rest : Program α

def wakeAt (w : World) (now : Nat) : World := { w with timer := { w.timer with now } }

/-- Runs the second program up to the first instant not before `limit` at which it is to go on, and
then hands over. -/
def runUntil {β γ : Type} (limit : Nat) (hand : Sleeper β → World → Outcome γ) :
    (wake : Nat) → Program β → World → Outcome γ
  | wake, p, w =>
    if limit ≤ wake then hand ⟨wake, p⟩ w
    else
      let w := w.wakeAt wake
      match p with
      | .done b => hand ⟨limit, .done b⟩ w
      | .crash o => (.error o, w)
      | .call r k =>
        match w.wait? r with
        | some (wake, a) => runUntil limit hand wake (k a) w
        | none =>
          match w.perform r with
          | (.ok a, w) => runUntil limit hand wake (k a) w
          | (.error o, w) => (.error o, w)

/-- Runs the first program, and the second whenever the first waits. -/
def runWith {α β : Type} : Program α → Sleeper β → World → Outcome (α × β)
  | .done a, s, w =>
    let (r, w) := run s.rest (w.wakeAt (max w.timer.now s.wake))
    (r.map (a, ·), w)
  | .crash o, _, w => (.error o, w)
  | .call r k, s, w =>
    match w.wait? r with
    | some (wake, a) =>
      runUntil wake (fun s w => runWith (k a) s (w.wakeAt wake)) s.wake s.rest w
    | none =>
      match w.perform r with
      | (.ok a, w) => runWith (k a) s w
      | (.error o, w) => (.error o, w)

def runPair {α β : Type} (p : Program α) (q : Program β) (w : World) : Outcome (α × β) :=
  runWith p ⟨w.timer.now, q⟩ w

end Causeway.World
