import Causeway.Proofs.Crossing.Filed

/-!
# Taking deposits in

An intake looks its account up twice, reads the clock, draws an identifier and stores its deposit;
only then does it call the rail (`initiateForRailAccount_intake`). Where the reference is taken
already, it changes no book (`Intake.books_eq`) and is refused after five requests at most
(`Intake.length_le`, `Intake.answer_eq`).
-/

namespace Causeway

/-- What is stored, paid in and ordered, and the calls made for it. -/
structure World.Books where
  deposits : Store.Deposits
  usages : Store.Usages
  brokerage : Brokerage.Sandbox
  rail : Rail.Sandbox
  outbound : List Outbound

def World.books (w : World) : World.Books :=
  ⟨w.deposits, w.usages, w.brokerage, w.rail, w.outbound⟩

/-- Neither the look-up of an account nor the storing of a deposit is made to fail. -/
structure World.TakesIn (w : World) : Prop where
  accounts : w.script.fault? .accountsByRail = none
  deposits : w.script.fault? .depositsCreate = none

namespace Crossing

open World (Retains)

variable {s : Settings} {α : Type} {railAccount reference : String} {amount : Amount}
  {x : Exchange} {xs : List Exchange} {q : Program (Except Failure Deposit)}

/-- What an intake asks for before it stores its deposit. -/
def Preparing : Request → Prop
  | .accountByRail _ | .now | .freshId => True
  | _ => False

theorem books_of_preparing (h : Preparing x.request) : x.after.books = x.before.books := by
  obtain ⟨w, r⟩ := x
  cases r with
  | accountByRail a => exact World.guarded_eq (f := World.books) (fun _ _ => rfl) (fun _ => rfl) w _
  | now | freshId => rfl
  | _ => exact h.elim

/-- The exchange stores a deposit under the reference. -/
inductive Exchange.Stores (reference : String) : Exchange → Prop where
  | created {w : World} {d : Deposit} (hd : d.reference = reference)
      (h : (w.perform (.createDeposit d)).1 = .ok (.ok ())) : Stores reference ⟨w, .createDeposit d⟩

/-! ## Looking an account up -/

/-- What comes of looking an account up. -/
inductive LooksUp (railAccount : String) : Exchange → Except Failure VirtualAccount → Prop where
  | found {w : World} {a : VirtualAccount}
      (h : (w.perform (.accountByRail railAccount)).1 = .ok (.ok (some a))) :
      LooksUp railAccount ⟨w, .accountByRail railAccount⟩ (.ok a)
  | unknown {w : World} (h : (w.perform (.accountByRail railAccount)).1 = .ok (.ok none)) :
      LooksUp railAccount ⟨w, .accountByRail railAccount⟩
        (.error (.notFound .virtualAccount railAccount))
  | failed {w : World} {e : Failure}
      (h : (w.perform (.accountByRail railAccount)).1 = .ok (.error e)) :
      LooksUp railAccount ⟨w, .accountByRail railAccount⟩ (.error e)

theorem LooksUp.preparing {r : Except Failure VirtualAccount} (h : LooksUp railAccount x r) :
    Preparing x.request := by
  cases h <;> trivial

theorem LooksUp.stored {a : VirtualAccount} (h : LooksUp railAccount x (.ok a)) :
    x.before.accountByRail? railAccount = some a := by
  cases h with
  | found h => exact (World.look_ok h).1.symm

theorem LooksUp.error_eq {e : Failure} (h : LooksUp railAccount x (.error e))
    (hx : x.before.TakesIn) :
    x.before.accountByRail? railAccount = none ∧ e = .notFound .virtualAccount railAccount := by
  have hlook : ∀ w : World, w.TakesIn → (w.perform (.accountByRail railAccount)).1 =
      .ok (.ok (w.accountByRail? railAccount)) := fun w hw => by
    simp only [World.perform, World.look, World.guarded_of_none hw.accounts]
  cases h with
  | unknown h =>
      rw [hlook _ hx] at h
      injection h with h
      injection h with h
      exact ⟨h, rfl⟩
  | failed h =>
      rw [hlook _ hx] at h
      cases h

theorem lookUp_path {f : VirtualAccount → Action α} {q : Program (Except Failure α)}
    (h : Path (do
      let a ← Action.ask (Program.request (.accountByRail railAccount))
      let a ← Action.orNotFound .virtualAccount railAccount a
      f a : Action α).run xs q) :
    (xs = [] ∧ ∀ r, q ≠ .done r) ∨
      (∃ x e, xs = [x] ∧ LooksUp railAccount x (.error e) ∧ q = .done (.error e)) ∨
      ∃ x ys a, xs = x :: ys ∧ LooksUp railAccount x (.ok a) ∧ Path (f a).run ys q := by
  rcases Path.of_call (r := .accountByRail railAccount) h rfl with
    ⟨rfl, rfl⟩ | ⟨w, a, ys, rfl, ha, hys⟩
  · exact .inl ⟨rfl, fun _ h => nomatch h⟩
  · rcases a with e | _ | a
    · obtain ⟨rfl, rfl⟩ := Path.of_done hys
      exact .inr (.inl ⟨_, e, rfl, .failed ha, rfl⟩)
    · obtain ⟨rfl, rfl⟩ := Path.of_done hys
      exact .inr (.inl ⟨_, _, rfl, .unknown ha, rfl⟩)
    · exact .inr (.inr ⟨_, ys, a, rfl, .found ha, hys⟩)

/-! ## The course of an intake -/

/-- The exchanges of an intake, and what is left of it. -/
inductive Intake (railAccount reference : String) :
    List Exchange → Program (Except Failure Deposit) → Prop where
  | preparing {xs : List Exchange} {q : Program (Except Failure Deposit)}
      (hxs : ∀ x ∈ xs, Preparing x.request) (hlength : xs.length < 5) (hq : ∀ r, q ≠ .done r) :
      Intake railAccount reference xs q
  | unread {x : Exchange} {e : Failure} (hx : LooksUp railAccount x (.error e)) :
      Intake railAccount reference [x] (.done (.error e))
  | reread {x y : Exchange} {a : VirtualAccount} {e : Failure} (hx : LooksUp railAccount x (.ok a))
      (hy : LooksUp railAccount y (.error e)) :
      Intake railAccount reference [x, y] (.done (.error e))
  | foreign {x y : Exchange} {a b : VirtualAccount} {e : Failure}
      (hx : LooksUp railAccount x (.ok a)) (hy : LooksUp railAccount y (.ok b))
      (huser : b.user ≠ a.user) : Intake railAccount reference [x, y] (.done (.error e))
  | refused {x y z u : Exchange} {a : VirtualAccount} {w : World} {d : Deposit} {e : Failure}
      (hx : LooksUp railAccount x (.ok a)) (hxs : ∀ v ∈ [x, y, z, u], Preparing v.request)
      (hd : d.reference = reference) (h : (w.perform (.createDeposit d)).1 = .ok (.error e)) :
      Intake railAccount reference [x, y, z, u, ⟨w, .createDeposit d⟩] (.done (.error e))
  | stored (xs ys : List Exchange) {x : Exchange} {q : Program (Except Failure Deposit)}
      (hx : x.Stores reference) : Intake railAccount reference (xs ++ x :: ys) q

/-- Every way that an intake can go, as far as it has gone. -/
theorem initiateForRailAccount_intake (hreference : Text.isBlankText reference = false)
    (h : Path (initiateForRailAccount s railAccount amount reference).run xs q) :
    Intake railAccount reference xs q := by
  rcases lookUp_path h with ⟨rfl, hq⟩ | ⟨x, e, rfl, hx, rfl⟩ | ⟨x, xs, a, rfl, hx, h⟩
  · exact .preparing (by simp) (by simp) hq
  · exact .unread hx
  -- The account is known now; the initiation looks it up once more, to see whose it is.
  unfold initiate at h
  dsimp only at h
  rw [if_neg (by simp [hreference])] at h
  rcases lookUp_path h with ⟨rfl, hq⟩ | ⟨y, e, rfl, hy, rfl⟩ | ⟨y, ys, b, rfl, hy, h⟩
  · exact .preparing (by simpa using hx.preparing) (by simp) hq
  · exact .reread hx hy
  split at h
  · obtain ⟨rfl, rfl⟩ := Path.of_done h
    exact .foreign hx hy ‹_›
  have hlooks : Preparing x.request ∧ Preparing y.request := ⟨hx.preparing, hy.preparing⟩
  rcases Path.of_call (r := .now) h rfl with ⟨rfl, rfl⟩ | ⟨w₁, now, zs, rfl, -, h⟩
  · exact .preparing (by simpa using hlooks) (by simp) fun _ h => nomatch h
  rcases Path.of_call (r := .freshId) h rfl with ⟨rfl, rfl⟩ | ⟨w₂, id, us, rfl, -, h⟩
  · exact .preparing (by simpa [Preparing] using hlooks) (by simp) fun _ h => nomatch h
  rcases Path.of_call (r := .createDeposit _) h rfl with ⟨rfl, rfl⟩ | ⟨w₃, r, vs, rfl, hr, h⟩
  · exact .preparing (by simpa [Preparing] using hlooks) (by simp) fun _ h => nomatch h
  rcases r with e | ⟨⟩
  · obtain ⟨rfl, rfl⟩ := Path.of_done h
    exact .refused hx (by simpa [Preparing] using hlooks) rfl hr
  · exact .stored [x, y, ⟨w₁, .now⟩, ⟨w₂, .freshId⟩] vs (.created rfl hr)

/-- An intake counts nothing, so it does not overflow. -/
theorem initiateForRailAccount_counts_nothing :
    (initiateForRailAccount s railAccount amount reference).run.Only (World.counts · = false) := by
  refine Program.Only.seq (Program.Only.request rfl) fun found => ?_
  refine Program.Only.seq (Program.Only.orNotFound _ _ found) fun account => ?_
  exact only_initiate rfl rfl rfl (fun _ => rfl) (fun _ => rfl) rfl (fun _ => rfl) fun _ => rfl

/-- What has started a conversion has stored a deposit. -/
theorem Intake.stores {d : Deposit} (h : Intake railAccount reference xs (.done (.ok d))) :
    ∃ x ∈ xs, x.Stores reference := by
  cases h with
  | preparing hxs hlength hq => exact absurd rfl (hq _)
  | stored xs ys hx => exact ⟨_, by simp, hx⟩

/-! ## References that are taken already -/

theorem Exchange.Stores.not_held (h : x.Stores reference) (hx : x.before.Filed) :
    ¬ x.before.Holds reference := by
  intro hheld
  cases h with
  | created hd h =>
      obtain ⟨⟨e, c, he⟩, -⟩ := hx.create_refused (hd ▸ hheld)
      rw [he] at h
      cases h

section Late

variable (hheld : ∀ y ∈ xs, y.before.Filed ∧ y.before.Holds reference)

include hheld

theorem not_stores_of_held : ∀ x ∈ xs, ¬ x.Stores reference := fun x hx hstores =>
  hstores.not_held (hheld x hx).1 (hheld x hx).2

/-- None of the exchanges changes a book. -/
theorem Intake.books_eq (h : Intake railAccount reference xs q) :
    ∀ y ∈ xs, y.after.books = y.before.books := by
  suffices ∀ y ∈ xs, Preparing y.request ∨
      ∃ w d, y = ⟨w, .createDeposit d⟩ ∧ d.reference = reference by
    intro y hy
    rcases this y hy with hprep | ⟨w, d, rfl, rfl⟩
    · exact books_of_preparing hprep
    · obtain ⟨hfiled, hholds⟩ := hheld _ hy
      obtain ⟨⟨e, c, he⟩, -⟩ := hfiled.create_refused hholds
      rw [Exchange.after, he]
      rfl
  cases h with
  | preparing hxs hlength hq => exact fun y hy => .inl (hxs y hy)
  | unread hx => simpa using .inl hx.preparing
  | reread hx hy => simpa using ⟨.inl hx.preparing, .inl hy.preparing⟩
  | foreign hx hy huser => simpa using ⟨.inl hx.preparing, .inl hy.preparing⟩
  | @refused x y z u a w d e hx hxs hd h =>
      intro v hv
      rcases List.mem_append.mp (show v ∈ [x, y, z, u] ++ [⟨w, .createDeposit d⟩] from hv) with
        hv | hv
      · exact .inl (hxs v hv)
      · exact .inr ⟨w, d, List.mem_singleton.mp hv, hd⟩
  | stored xs ys hx => exact absurd hx (not_stores_of_held hheld _ (by simp))

/-- It ends after five requests at most. -/
theorem Intake.length_le (h : Intake railAccount reference xs q) :
    xs.length ≤ 5 ∧ ((∀ r, q ≠ .done r) → xs.length < 5) := by
  cases h with
  | preparing hxs hlength hq => exact ⟨Nat.le_of_lt hlength, fun _ => hlength⟩
  | unread hx => exact ⟨by simp, fun hq => absurd rfl (hq _)⟩
  | reread hx hy => exact ⟨by simp, fun hq => absurd rfl (hq _)⟩
  | foreign hx hy huser => exact ⟨by simp, fun hq => absurd rfl (hq _)⟩
  | refused hx hxs hd h => exact ⟨by simp, fun hq => absurd rfl (hq _)⟩
  | stored xs ys hx => exact absurd hx (not_stores_of_held hheld _ (by simp))

/-- Its end is a refusal, by the account if there is none and else by the reference. -/
theorem Intake.answer_eq {x : Exchange} {ys : List Exchange} {r : Except Failure Deposit}
    (h : Intake railAccount reference xs (.done r)) (hxs : xs = x :: ys)
    (horder : xs.Pairwise fun y z => Retains y.before z.before)
    (htakes : ∀ y ∈ xs, y.before.TakesIn) :
    r = .error (if x.before.accountByRail? railAccount = none
      then .notFound .virtualAccount railAccount else .duplicateReference reference) := by
  generalize hq : Program.done r = q at h
  cases h with
  | preparing hxs hlength hne => exact absurd hq.symm (hne r)
  | unread hx =>
      cases hxs
      cases hq
      obtain ⟨hnone, rfl⟩ := hx.error_eq (htakes _ (by simp))
      rw [if_pos hnone]
  | reread hx hy =>
      have hkept := (List.pairwise_cons.mp horder).1 _ (List.mem_singleton.mpr rfl)
      obtain ⟨hnone, -⟩ := hy.error_eq (htakes _ (by simp))
      rw [hkept.accountByRail? hx.stored] at hnone
      cases hnone
  | foreign hx hy huser =>
      have hkept := (List.pairwise_cons.mp horder).1 _ (List.mem_singleton.mpr rfl)
      have hsame := hy.stored
      rw [hkept.accountByRail? hx.stored] at hsame
      cases hsame
      exact absurd rfl huser
  | @refused x y z u a w d e hx _ hd h =>
      cases hxs
      cases hq
      obtain ⟨hfiled, hholds⟩ := hheld ⟨w, .createDeposit d⟩ (by simp)
      rw [(hfiled.create_refused (hd.symm ▸ hholds)).2 (htakes _ (by simp)).deposits] at h
      cases h
      rw [if_neg (by rw [hx.stored]; exact Option.some_ne_none a), hd]
  | stored xs ys hx => exact absurd hx (not_stores_of_held hheld _ (by simp))

end Late

end Crossing

end Causeway
