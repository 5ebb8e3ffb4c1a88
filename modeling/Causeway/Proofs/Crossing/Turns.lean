import Causeway.Proofs.Crossing.Log
import Causeway.Proofs.Crossing.Solo

/-!
# The turns of one operation

A log holds the exchanges of every operation under its number. Those of one operation are the path
that it has taken through its program (`Logged.traces`). An operation that is played alone adds its
own exchanges and no others (`Logged.alone`).
-/

namespace Causeway.Crossing

variable {s : Settings} {σ₀ σ : System} {log log' : Log} {i j : Nat} {x : Exchange}

/-- The exchanges of one operation, the earliest first. -/
def Log.exchangesOf (log : Log) (i : Nat) : List Exchange :=
  ((log.filter (·.1 = i)).map (·.2)).reverse

theorem exchangesOf_cons (j : Nat) (x : Exchange) (log : Log) (i : Nat) :
    Log.exchangesOf ((j, x) :: log) i =
      if j = i then log.exchangesOf i ++ [x] else log.exchangesOf i := by
  unfold Log.exchangesOf
  split <;> simp [*]

theorem exchangesOf_append (log log' : Log) (i : Nat) :
    Log.exchangesOf (log ++ log') i = log'.exchangesOf i ++ log.exchangesOf i := by
  simp [Log.exchangesOf]

theorem exchangesOf_map (xs : List Exchange) (j i : Nat) :
    Log.exchangesOf (xs.map (j, ·)) i = if j = i then xs.reverse else [] := by
  unfold Log.exchangesOf
  split <;> simp [*, List.filter_map, Function.comp_def]

theorem mem_exchangesOf : x ∈ log.exchangesOf i ↔ (i, x) ∈ log := by
  simp [Log.exchangesOf]

/-! ## Paths -/

/-- Every operation has come along the path that the log notes for it. -/
structure Log.Traces (s : Settings) (log : Log) (σ : System) : Prop where
  path : ∀ i a, σ.running[i]? = some a →
    Path (a.operation.program s) (log.exchangesOf i) a.rest
  unknown : ∀ i, σ.running.length ≤ i → log.exchangesOf i = []

theorem Log.Traces.start (h : log.Traces s σ) (op : Operation) : log.Traces s (σ.start s op) where
  path i a ha := by
    rw [System.getElem?_start] at ha
    split at ha
    · rename_i hi
      cases ha
      rw [h.unknown i (Nat.le_of_eq hi.symm)]
      exact .nil
    · exact h.path i a ha
  unknown i hi := by
    refine h.unknown i (Nat.le_of_succ_le ?_)
    simpa [System.start] using hi

theorem Log.Traces.turn {before behind : List Activity} {op : Operation} {r : Request}
    {k : r.Answer → Program Result} (h : log.Traces s σ)
    (hr : σ.running = before ++ ⟨op, .call r k⟩ :: behind) :
    Log.Traces s ((before.length, ⟨σ.world, r⟩) :: log) (σ.turn before behind op r k) where
  path i a ha := by
    rw [exchangesOf_cons]
    rw [System.getElem?_turn hr] at ha
    by_cases hi : i = before.length
    · rw [if_pos hi] at ha
      cases ha
      have hself : σ.running[i]? = some ⟨op, .call r k⟩ := by simp [hr, hi]
      rw [if_pos hi.symm, resume_eq_goOn]
      exact (h.path i _ hself).snoc
    · rw [if_neg hi] at ha
      rw [if_neg (Ne.symm hi)]
      exact h.path i a ha
  unknown i hi := by
    rw [System.length_turn hr] at hi
    have hlength : before.length < σ.running.length := by simp [hr]
    rw [exchangesOf_cons, if_neg (by omega)]
    exact h.unknown i hi

theorem Logged.traces (h : Logged s σ₀ σ log) (hidle : σ₀.running = []) : log.Traces s σ := by
  induction h with
  | refl => exact ⟨by simp [hidle], fun _ _ => rfl⟩
  | start _ op ih => exact ih.start op
  | turn _ hr ih => exact ih.turn hr
  | disturb _ _ ih => exact ⟨ih.path, ih.unknown⟩

/-! ## Operations alone -/

theorem Logged.play (before : List Activity) (op : Operation) (p : Program Result) (w : World)
    (history : List Exchange) (h : Logged s σ₀ ⟨w, before ++ [⟨op, p⟩], history⟩ log) :
    ∃ xs, (System.play before op p w history).history = xs ++ history ∧
      Logged s σ₀ (System.play before op p w history) (xs.map (before.length, ·) ++ log) := by
  induction p generalizing w history log with
  | done a => exact ⟨[], rfl, h⟩
  | crash o => exact ⟨[], rfl, h⟩
  | call r k ih =>
      have hr : before ++ [⟨op, .call r k⟩] = before ++ ⟨op, .call r k⟩ :: [] := rfl
      have hturn := h.turn hr
      simp only [System.turn] at hturn
      simp only [System.play]
      cases ha : (w.perform r).1 with
      | ok a =>
          rw [ha] at hturn
          obtain ⟨xs, hxs, hlog⟩ := ih a _ _ hturn
          refine ⟨xs ++ [⟨w, r⟩], by rw [hxs, List.append_assoc]; rfl, ?_⟩
          rw [List.map_append, List.append_assoc]
          exact hlog
      | error o =>
          rw [ha] at hturn
          exact ⟨[⟨w, r⟩], rfl, hturn⟩

theorem play_running (before : List Activity) (op : Operation) (p : Program Result) (w : World)
    (history : List Exchange) : ∃ q, (System.play before op p w history).running =
      before ++ [⟨op, q⟩] ∧ ¬ Waiting q := by
  induction p generalizing w history with
  | done a => exact ⟨.done a, rfl, fun ⟨_, _, h⟩ => nomatch h⟩
  | crash o => exact ⟨.crash o, rfl, fun ⟨_, _, h⟩ => nomatch h⟩
  | call r k ih =>
      simp only [System.play]
      cases (w.perform r).1 with
      | ok a => exact ih a _ _
      | error o => exact ⟨.crash o, rfl, fun ⟨_, _, h⟩ => nomatch h⟩

theorem alone_running (σ : System) (op : Operation) :
    ∃ q, (σ.alone s op).running = σ.running ++ [⟨op, q⟩] ∧ ¬ Waiting q :=
  play_running σ.running op (op.program s) σ.world σ.history

theorem Logged.alone (h : Logged s σ₀ σ log) (op : Operation) : Logged s σ₀ (σ.alone s op)
    (((σ.alone s op).since σ).map (σ.running.length, ·) ++ log) := by
  obtain ⟨xs, hxs, hlog⟩ := Logged.play σ.running op (op.program s) σ.world σ.history (h.start op)
  have hsince : (σ.alone s op).since σ = xs := by
    rw [System.since, show (σ.alone s op).history = xs ++ σ.history from hxs]
    simp
  rw [hsince]
  exact hlog

end Causeway.Crossing
