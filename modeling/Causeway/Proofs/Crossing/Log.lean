import Causeway.Proofs.Crossing.Calling

/-!
# Calls in a log

A log notes for every exchange of a run which operation made it. Whoever looks a deposit up by its
transfer begins a callback, and the callback is then fed the exchanges of that operation for as long
as it waits for an answer (`calls`). An operation that waits within a callback is exactly where the
log puts it (`Logged.places`). Every run has a log (`Run.logged`), and one by a schedule can be
computed with its log (`Logged.playTurns`).
-/

namespace Causeway.Crossing

open Deposit (Event Status)
open Program (Only)

variable {s : Settings} {α : Type}

/-! ## Logs -/

/-- The exchanges of a run, each under the number of the operation that made it, the latest first. -/
abbrev Log := List (Nat × Exchange)

/-- A run together with its log. -/
inductive Logged (s : Settings) (σ₀ : System) : System → Log → Prop where
  | refl : Logged s σ₀ σ₀ []
  | start {σ : System} {log : Log} (h : Logged s σ₀ σ log) (op : Operation) :
      Logged s σ₀ (σ.start s op) log
  | turn {σ : System} {log : Log} (h : Logged s σ₀ σ log) {before behind : List Activity}
      {op : Operation} {r : Request} {k : r.Answer → Program Result}
      (hr : σ.running = before ++ ⟨op, .call r k⟩ :: behind) :
      Logged s σ₀ (σ.turn before behind op r k) ((before.length, ⟨σ.world, r⟩) :: log)
  | disturb {σ : System} {log : Log} (h : Logged s σ₀ σ log) {w : World}
      (hd : Disturbance σ.world w) : Logged s σ₀ { σ with world := w } log

variable {σ₀ σ : System} {log : Log}

theorem Logged.run (h : Logged s σ₀ σ log) : Run s σ₀ σ := by
  induction h with
  | refl => exact .refl
  | start _ op ih => exact ih.tail (.start op)
  | turn _ hr ih => exact ih.tail (.turn hr)
  | disturb _ hd ih => exact ih.tail (.disturb hd)

theorem Run.logged (h : Run s σ₀ σ) : ∃ log, Logged s σ₀ σ log := by
  induction h with
  | refl => exact ⟨[], .refl⟩
  | tail _ hstep ih =>
      obtain ⟨log, h⟩ := ih
      cases hstep with
      | start op => exact ⟨log, h.start op⟩
      | turn hr => exact ⟨_, h.turn hr⟩
      | disturb hd => exact ⟨log, h.disturb hd⟩

/-! ## Calls -/

/-- A callback that an operation has begun, with what it has done and what is left of it. -/
structure Call where
  caller : Nat
  transfer : String
  exchanges : List Exchange := []
  rest : Program (Except Failure CallbackOutcome)

deriving instance DecidableEq for Request

/-- What is left of a program after an exchange, if it waits for one of that request. -/
def take? (x : Exchange) : Program α → Option (Program α)
  | .call r k =>
    if h : r = x.request then
      some (match r, h, k with | _, rfl, k => goOn k x.answer)
    else none
  | _ => none

def Call.take (c : Call) (x : Exchange) : Call :=
  match take? x c.rest with
  | some p => { c with exchanges := c.exchanges ++ [x], rest := p }
  | none => c

/-- An exchange belongs to the latest call of the operation that made it. -/
def feed (caller : Nat) (x : Exchange) : List Call → List Call
  | [] => []
  | c :: cs => if c.caller = caller then c.take x :: cs else c :: feed caller x cs

/-- The callbacks of a log, the latest first. -/
def calls (s : Settings) : Log → List Call
  | [] => []
  | (caller, x) :: log =>
    match x.request with
    | .depositByTransfer transfer =>
      Call.take { caller, transfer, rest := (callback s transfer).run } x :: calls s log
    | _ => feed caller x (calls s log)

/-! ## Feeding calls -/

def latest (caller : Nat) (cs : List Call) : Option Call := cs.find? (·.caller = caller)

variable {c : Call} {cs : List Call} {i j : Nat} {w : World} {r : Request} {x : Exchange}

theorem take_of_call {k : r.Answer → Program (Except Failure CallbackOutcome)}
    (h : c.rest = .call r k) : c.take ⟨w, r⟩ =
      { c with exchanges := c.exchanges ++ [⟨w, r⟩], rest := goOn k (w.perform r).1 } := by
  simp only [Call.take, take?, h, dif_pos]
  rfl

theorem take_of_ended (h : ¬ Waiting c.rest) : c.take x = c := by
  unfold Call.take take?
  cases hc : c.rest with
  | call r k => exact absurd ⟨r, k, hc⟩ h
  | done a => rfl
  | crash o => rfl

theorem caller_take (c : Call) (x : Exchange) : (c.take x).caller = c.caller := by
  unfold Call.take
  split <;> rfl

theorem latest_cons (c : Call) (cs : List Call) :
    latest i (c :: cs) = if c.caller = i then some c else latest i cs := by
  unfold latest
  by_cases h : c.caller = i <;> simp [h]

theorem latest_feed_self (x : Exchange) (cs : List Call) :
    latest i (feed i x cs) = (latest i cs).map (·.take x) := by
  induction cs with
  | nil => rfl
  | cons c cs ih =>
      by_cases h : c.caller = i
      · simp [feed, h, latest_cons, caller_take]
      · simp [feed, h, latest_cons, ih]

theorem latest_feed_of_ne (h : j ≠ i) (x : Exchange) (cs : List Call) :
    latest j (feed i x cs) = latest j cs := by
  induction cs with
  | nil => rfl
  | cons c cs ih =>
      by_cases hc : c.caller = i
      · simp [feed, hc, latest_cons, caller_take, Ne.symm h]
      · simp [feed, hc, latest_cons, ih]

theorem feed_of_none (h : latest i cs = none) (x : Exchange) : feed i x cs = cs := by
  induction cs with
  | nil => rfl
  | cons c cs ih =>
      rw [latest_cons] at h
      split at h
      · cases h
      · rename_i hc
        simp [feed, hc, ih h]

theorem feed_of_latest (h : latest i cs = some c) (x : Exchange) : ∃ before behind,
    cs = before ++ c :: behind ∧ feed i x cs = before ++ c.take x :: behind := by
  induction cs with
  | nil => cases h
  | cons c' cs ih =>
      rw [latest_cons] at h
      split at h
      · rename_i hc
        cases h
        exact ⟨[], cs, rfl, by simp [feed, hc]⟩
      · rename_i hc
        obtain ⟨before, behind, rfl, hfeed⟩ := ih h
        exact ⟨c' :: before, behind, rfl, by simp [feed, hc, hfeed]⟩

theorem feed_of_ended (h : ∀ c, latest i cs = some c → ¬ Waiting c.rest) (x : Exchange) :
    feed i x cs = cs := by
  cases hl : latest i cs with
  | none => exact feed_of_none hl x
  | some c =>
      obtain ⟨before, behind, rfl, hfeed⟩ := feed_of_latest hl x
      rw [hfeed, take_of_ended (h c hl)]

theorem calls_of_other (h : ∀ transfer, x.request ≠ .depositByTransfer transfer) :
    calls s ((i, x) :: log) = feed i x (calls s log) := by
  obtain ⟨w, r⟩ := x
  cases r with
  | depositByTransfer transfer => exact absurd rfl (h transfer)
  | _ => rfl

/-! ## Where operations are -/

/-- What is left of an operation, by the latest of its calls. -/
inductive Serves (s : Settings) (cs : List Call) (caller : Nat) (p : Program Result) : Prop where
  | between (hp : Calling s p) (hlast : ∀ c, latest caller cs = some c → ¬ Waiting c.rest)
  | within {c : Call} {f : Except Failure CallbackOutcome → Program Result}
      (hlast : latest caller cs = some c) (hwaiting : Waiting c.rest) (hp : p = c.rest >>= f)
      (hf : ∀ r, Calling s (f r))

/-- The call has made its exchanges as a callback for its transfer does. -/
structure Call.Sound (s : Settings) (c : Call) : Prop where
  path : Path (callback s c.transfer).run c.exchanges c.rest
  begun : c.exchanges ≠ []

theorem Call.Sound.course (h : c.Sound s) : Course c.transfer c.exchanges c.rest :=
  callback_course h.path h.begun

/-- The calls after an operation's turn. -/
inductive Noted (x : Exchange) (cs : List Call) : List Call → Prop where
  | begun {c : Call} (hx : x.request = .depositByTransfer c.transfer) (hc : c.exchanges = [x]) :
      Noted x cs (c :: cs)
  | fed {before behind : List Call} {c c' : Call} (hcs : cs = before ++ c :: behind)
      (htransfer : c'.transfer = c.transfer) (hc' : c'.exchanges = c.exchanges ++ [x]) :
      Noted x cs (before ++ c' :: behind)
  | apart (hx : Between x.request) : Noted x cs cs

theorem serves_of_rest {p : Program Result} {f : Except Failure CallbackOutcome → Program Result}
    (hlast : latest i cs = some c) (hp : p = c.rest >>= f) (hf : ∀ r, Calling s (f r)) :
    Serves s cs i p := by
  cases hc : c.rest with
  | call r k => exact .within hlast ⟨r, k, hc⟩ hp hf
  | done a =>
      refine .between (hp ▸ hc ▸ hf a) fun c' hc' => ?_
      rintro ⟨r, k, hk⟩
      rw [hlast] at hc'
      cases hc'
      cases hc.symm.trans hk
  | crash o =>
      refine .between (hp ▸ hc ▸ .crash o) fun c' hc' => ?_
      rintro ⟨r, k, hk⟩
      rw [hlast] at hc'
      cases hc'
      cases hc.symm.trans hk

theorem resume_eq_goOn (k : r.Answer → Program Result) (a : Except Overflow r.Answer) :
    System.resume k a = goOn k a := by
  cases a <;> rfl

/-- A turn is noted with the call that it belongs to, and the operation is then where the log puts
it. -/
theorem Serves.turn {k : r.Answer → Program Result} (h : Serves s (calls s log) i (.call r k))
    (hsound : ∀ c ∈ calls s log, c.Sound s) (w : World) :
    Noted ⟨w, r⟩ (calls s log) (calls s ((i, ⟨w, r⟩) :: log)) ∧
      (∀ c ∈ calls s ((i, ⟨w, r⟩) :: log), c.Sound s) ∧
      Serves s (calls s ((i, ⟨w, r⟩) :: log)) i (System.resume k (w.perform r).1) ∧
      ∀ j ≠ i, latest j (calls s ((i, ⟨w, r⟩) :: log)) = latest j (calls s log) := by
  rw [resume_eq_goOn]
  cases h with
  | between hp hlast =>
      rcases hp.of_call with ⟨hr, hk⟩ | ⟨transfer, f, hp, hf⟩
      · have hcalls : calls s ((i, ⟨w, r⟩) :: log) = calls s log := by
          rw [calls_of_other, feed_of_ended hlast]
          rintro t rfl
          exact hr
        rw [hcalls]
        refine ⟨.apart hr, hsound, .between ?_ hlast, fun _ _ => rfl⟩
        cases (w.perform r).1 with
        | ok a => exact hk a
        | error o => exact .crash o
      · obtain ⟨k₀, hk₀⟩ :
            ∃ k₀, (callback s transfer).run = .call (.depositByTransfer transfer) k₀ := ⟨_, rfl⟩
        rw [hk₀] at hp
        obtain ⟨rfl, hk⟩ := Program.call.inj hp
        obtain rfl := eq_of_heq hk
        have hcalls : calls s ((i, ⟨w, .depositByTransfer transfer⟩) :: log) =
            Call.take ⟨i, transfer, [], (callback s transfer).run⟩
              ⟨w, .depositByTransfer transfer⟩ :: calls s log := rfl
        rw [hcalls, take_of_call hk₀]
        refine ⟨.begun rfl rfl, ?_, ?_, fun j hj => ?_⟩
        · intro c hc
          rcases List.mem_cons.mp hc with rfl | hc
          · exact ⟨by rw [hk₀]; exact .cons .nil, List.cons_ne_nil _ _⟩
          · exact hsound c hc
        · exact serves_of_rest (by rw [latest_cons, if_pos rfl]) (goOn_bind _) hf
        · rw [latest_cons, if_neg (Ne.symm hj)]
  | @within c f hlast hwaiting hp hf =>
      obtain ⟨r₀, k₀, hrest⟩ := hwaiting
      rw [hrest] at hp
      obtain ⟨rfl, hk⟩ := Program.call.inj hp
      obtain rfl := eq_of_heq hk
      have hc := hsound c (List.mem_of_find?_eq_some hlast)
      have hpath : Path (callback s c.transfer).run (c.exchanges ++ [⟨w, r⟩])
          (goOn k₀ (w.perform r).1) := (hrest ▸ hc.path).snoc
      have hother : ∀ transfer, r ≠ .depositByTransfer transfer := by
        obtain ⟨x, xs, hxs⟩ := List.exists_cons_of_ne_nil hc.begun
        rw [hxs] at hpath
        exact (callback_course hpath (List.cons_ne_nil _ _)).tail ⟨w, r⟩ (by simp)
      obtain ⟨before, behind, hsplit, hfeed⟩ := feed_of_latest hlast ⟨w, r⟩
      have htake := take_of_call (w := w) hrest
      rw [calls_of_other hother]
      refine ⟨?_, ?_, ?_, fun j hj => latest_feed_of_ne hj _ _⟩
      · rw [hfeed]
        exact .fed hsplit (by rw [htake]) (by rw [htake])
      · rw [hfeed]
        intro c' hc'
        rw [hsplit] at hsound
        rcases List.mem_append.mp hc' with hb | hb
        · exact hsound c' (List.mem_append_left _ hb)
        · rcases List.mem_cons.mp hb with rfl | hb
          · rw [htake]
            exact ⟨hpath, by simp⟩
          · exact hsound c' (List.mem_append_right _ (List.mem_cons_of_mem _ hb))
      · refine serves_of_rest (c := c.take ⟨w, r⟩) (by rw [latest_feed_self, hlast]; rfl) ?_ hf
        rw [htake]
        exact goOn_bind _

/-! ## Runs -/

/-- Every operation is where the log puts it. -/
structure Log.Places (s : Settings) (log : Log) (σ : System) : Prop where
  sound : ∀ c ∈ calls s log, c.Sound s
  serves : ∀ i a, σ.running[i]? = some a → Serves s (calls s log) i a.rest
  known : ∀ i c, latest i (calls s log) = some c → i < σ.running.length

theorem Log.Places.turn {before behind : List Activity} {op : Operation}
    {k : r.Answer → Program Result} (h : log.Places s σ)
    (hr : σ.running = before ++ ⟨op, .call r k⟩ :: behind) :
    Noted ⟨σ.world, r⟩ (calls s log) (calls s ((before.length, ⟨σ.world, r⟩) :: log)) ∧
      Log.Places s ((before.length, ⟨σ.world, r⟩) :: log) (σ.turn before behind op r k) := by
  have hself : σ.running[before.length]? = some ⟨op, .call r k⟩ := by simp [hr]
  obtain ⟨hnoted, hsound, hserves, hothers⟩ := (h.serves _ _ hself).turn h.sound σ.world
  refine ⟨hnoted, hsound, fun i a ha => ?_, fun i c hc => ?_⟩
  · rw [System.getElem?_turn hr] at ha
    split at ha
    · rename_i hi
      cases ha
      exact hi ▸ hserves
    · rename_i hi
      cases h.serves i a ha with
      | between hp hlast => exact .between hp (by rw [hothers i hi]; exact hlast)
      | within hlast hw hp hf => exact .within ((hothers i hi).trans hlast) hw hp hf
  · rw [System.length_turn hr]
    by_cases hi : i = before.length
    · subst hi
      rw [hr]
      simp
    · rw [hothers i hi] at hc
      exact h.known i c hc

theorem Log.Places.start (h : log.Places s σ) (op : Operation) : log.Places s (σ.start s op) where
  sound := h.sound
  serves i a ha := by
    rw [System.getElem?_start] at ha
    split at ha
    · rename_i hi
      cases ha
      refine .between (program_calls s op) fun c hc => ?_
      exact absurd (h.known i c hc) (by omega)
    · exact h.serves i a ha
  known i c hc := by
    have := h.known i c hc
    rw [System.start, List.length_append]
    omega

theorem Logged.places (h : Logged s σ₀ σ log) (hidle : σ₀.running = []) : log.Places s σ := by
  induction h with
  | refl =>
      refine ⟨fun _ hc => (List.not_mem_nil hc).elim, fun i a ha => ?_, fun _ _ hc => nomatch hc⟩
      rw [hidle] at ha
      cases ha
  | start _ op ih => exact ih.start op
  | turn _ hr ih => exact (ih.turn hr).2
  | disturb _ _ ih => exact ⟨ih.sound, ih.serves, ih.known⟩

/-! ## Turns by a schedule -/

/-- The operation of that number takes its turn, if it waits for an answer. -/
def playTurn (x : System × Log) (i : Nat) : System × Log :=
  match x.1.running[i]? with
  | some ⟨op, .call r k⟩ =>
    (x.1.turn (x.1.running.take i) (x.1.running.drop (i + 1)) op r k, (i, ⟨x.1.world, r⟩) :: x.2)
  | _ => x

theorem Logged.playTurn {x : System × Log} (h : Logged s σ₀ x.1 x.2) (i : Nat) :
    Logged s σ₀ (playTurn x i).1 (playTurn x i).2 := by
  unfold Crossing.playTurn
  split
  · rename_i op r k hi
    obtain ⟨hlt, hget⟩ := List.getElem?_eq_some_iff.mp hi
    have hr : x.1.running = x.1.running.take i ++ ⟨op, .call r k⟩ :: x.1.running.drop (i + 1) := by
      rw [← hget, List.getElem_cons_drop, List.take_append_drop]
    have hlength : (x.1.running.take i).length = i := List.length_take_of_le (Nat.le_of_lt hlt)
    have hturn := h.turn hr
    rwa [hlength] at hturn
  · exact h

theorem Logged.playTurns {x : System × Log} (h : Logged s σ₀ x.1 x.2) (schedule : List Nat) :
    Logged s σ₀ (schedule.foldl Crossing.playTurn x).1 (schedule.foldl Crossing.playTurn x).2 := by
  induction schedule generalizing x with
  | nil => exact h
  | cons i schedule ih => exact ih (h.playTurn i)

end Causeway.Crossing
