import Mathlib.Data.List.Forall2
import Mathlib.Data.List.Perm.Basic
import Causeway.Proofs.Replay.Course
import Causeway.Proofs.Replay.Printed

/-!
# What a replay reports

A row opens a deposit if nothing stands in its way and no row before it has opened one under the same
reference. The stored deposits are those of the rows that open one, in the order of the rows, at every
point of a replay (`Progress.next`). The last sweep leaves them as they are, and the text of the
report has a line for each (`run_told`).
-/

namespace Causeway

namespace Store.Deposits

variable {s : Deposits} {ds : List Deposit} {d : Deposit}

/-! ## The order of the lines -/

theorem insertByCreation_sorted (h : ds.Pairwise (·.createdAt ≤ ·.createdAt)) :
    (insertByCreation d ds).Pairwise (·.createdAt ≤ ·.createdAt) := by
  induction ds with
  | nil => exact List.pairwise_singleton _ _
  | cons e es ih =>
      rw [List.pairwise_cons] at h
      unfold insertByCreation
      split
      · rename_i hle
        refine List.pairwise_cons.mpr ⟨fun x hx => ?_, List.pairwise_cons.mpr h⟩
        rcases List.mem_cons.mp hx with rfl | hx
        · exact hle
        · exact Int.le_trans hle (h.1 x hx)
      · rename_i hlt
        refine List.pairwise_cons.mpr ⟨fun x hx => ?_, ih h.2⟩
        rcases List.mem_cons.mp ((insertByCreation_perm d es).mem_iff.mp hx) with rfl | hx
        · exact Int.le_of_lt (Int.not_le.mp hlt)
        · exact h.1 x hx

theorem byCreation_sorted (ds : List Deposit) :
    (byCreation ds).Pairwise (·.createdAt ≤ ·.createdAt) := by
  induction ds with
  | nil => exact .nil
  | cons d ds ih => exact insertByCreation_sorted ih

/-- Deposits that were created one after another are in that order already. -/
theorem byCreation_eq_of_perm {es : List Deposit} (h : ds.Perm es)
    (hes : es.Pairwise (·.createdAt < ·.createdAt)) : byCreation ds = es := by
  have hkeys : (es.map (·.createdAt.key)).Nodup :=
    List.pairwise_map.mpr (hes.imp fun hlt => Int.ne_of_lt hlt)
  have hperm := (byCreation_perm ds).trans h
  refine hperm.eq_of_pairwise (fun d e hd he hle hge => ?_) (byCreation_sorted ds)
    (hes.imp fun hlt => Int.le_of_lt hlt)
  exact List.inj_on_of_nodup_map hkeys (hperm.mem_iff.mp hd) he (Int.le_antisymm hle hge)

/-- The deposits of all users together are all that are stored. -/
theorem collected_perm {users : List Uuid} (hu : users.Nodup) (h : ∀ d ∈ ds, d.user ∈ users) :
    (users.flatMap fun u => ds.filter (·.user = u)).Perm ds := by
  induction users generalizing ds with
  | nil =>
      have hnone : ds = [] := List.eq_nil_iff_forall_not_mem.mpr fun d hd => nomatch h d hd
      rw [hnone]
      exact .refl _
  | cons u us ih =>
      obtain ⟨hnew, hus⟩ := List.nodup_cons.mp hu
      let others := ds.filter fun d => !decide (d.user = u)
      have hothers : ∀ v ∈ us, ds.filter (·.user = v) = others.filter (·.user = v) := by
        intro v hv
        rw [List.filter_filter]
        refine List.filter_congr fun d _ => ?_
        have hne : v ≠ u := fun hvu => hnew (hvu ▸ hv)
        by_cases hd : d.user = v <;> simp [hd, hne]
      have hcover : ∀ d ∈ others, d.user ∈ us := by
        intro d hd
        obtain ⟨hd, hne⟩ := List.mem_filter.mp hd
        exact (List.mem_cons.mp (h d hd)).resolve_left (by simpa using hne)
      rw [List.flatMap_cons, List.flatMap_congr hothers]
      exact ((ih hus hcover).append_left _).trans (List.filter_append_perm _ ds)

theorem contains_reference_iff (hs : s.Sound) (hi : s.Indexed) {reference : String} :
    s.byReference.contains reference ↔ ∃ d ∈ s.byId.values, d.reference = reference := by
  rw [Table.contains, Option.isSome_iff_exists]
  constructor
  · rintro ⟨id, hid⟩
    obtain ⟨d, hd, href⟩ := (hi.reference reference id).mp hid
    exact ⟨d, (Table.mem_values_iff hs.distinct).mpr ⟨id, hd⟩, href⟩
  · rintro ⟨d, hd, href⟩
    obtain ⟨id, hid⟩ := (Table.mem_values_iff hs.distinct).mp hd
    exact ⟨id, (hi.reference reference id).mpr ⟨d, hid, href⟩⟩

end Store.Deposits

namespace Replay

open Store (Deposits)

variable {s : Settings} {rows : List (Except Instruction.RowFault Instruction)} {w : World}
  {m n : Nat} {st st' : State} {row row' : Instruction} {d : Deposit} {α β : Type}
  {given : Except Instruction.RowFault Instruction} {clock : Nat → Instant} {ids : Nat → Uuid}

/-! ## Rows that open a deposit -/

/-- The user of the first readable row that names the account. -/
def owner? (rows : List (Except Instruction.RowFault Instruction)) (railAccount : String) :
    Option Uuid :=
  rows.findSome? fun
    | .ok row => if row.railAccount = railAccount then some row.user else none
    | .error _ => none

/-- Nothing but its reference can stand in the way of the row: it is readable, the reference is not
blank, the row passes the limit check at its turn, and the account that it names is its user's. -/
structure Qualifies (s : Settings) (rows : List (Except Instruction.RowFault Instruction)) (w : World)
    (n : Nat) (row : Instruction) : Prop where
  readable : rows[n]? = some (.ok row)
  named : Text.isBlankText row.reference = false
  passes : ∃ st, Reaches s rows w n st ∧ Passes row st.world
  owned : owner? rows row.railAccount = some row.user

/-- The row is the first of those that qualify under its reference. -/
structure Opens (s : Settings) (rows : List (Except Instruction.RowFault Instruction)) (w : World)
    (n : Nat) (row : Instruction) : Prop where
  qualifies : Qualifies s rows w n row
  first : ∀ m < n, ∀ row', Qualifies s rows w m row' → row'.reference ≠ row.reference

theorem exists_opens (h : Qualifies s rows w n row) :
    ∃ m ≤ n, ∃ row', Opens s rows w m row' ∧ row'.reference = row.reference := by
  induction n using Nat.strongRecOn generalizing row with
  | _ n ih =>
      by_cases hfirst : ∀ m < n, ∀ row', Qualifies s rows w m row' →
          row'.reference ≠ row.reference
      · exact ⟨n, Nat.le_refl n, row, ⟨h, hfirst⟩, rfl⟩
      · push Not at hfirst
        obtain ⟨m, hm, row', hrow', href⟩ := hfirst
        obtain ⟨k, hk, row'', hopens, href'⟩ := ih m hm hrow'
        exact ⟨k, by omega, row'', hopens, href'.trans href⟩

theorem Opens.inj (h : Opens s rows w m row) (h' : Opens s rows w n row')
    (href : row.reference = row'.reference) : m = n := by
  rcases Nat.lt_trichotomy m n with hlt | heq | hlt
  · exact absurd href (h'.first m hlt row h.qualifies)
  · exact heq
  · exact absurd href.symm (h.first n hlt row' h'.qualifies)

theorem owner?_take_succ (hrow : rows[n]? = some given) (railAccount : String) :
    owner? (rows.take (n + 1)) railAccount =
      (owner? (rows.take n) railAccount).or (owner? [given] railAccount) := by
  unfold owner?
  rw [List.take_add_one, hrow, List.findSome?_append]
  rfl

theorem owner?_of_take {u : Uuid} {railAccount : String}
    (h : owner? (rows.take n) railAccount = some u) : owner? rows railAccount = some u :=
  (List.take_prefix n rows).findSome?_eq_some h

/-! ## How far a replay has come -/

/-- The stored deposits are those of the rows that have opened one so far, row by row. -/
structure Progress (s : Settings) (rows : List (Except Instruction.RowFault Instruction)) (w : World)
    (n : Nat) (st : State) : Prop where
  users : st.users.Nodup
  seen : ∀ d ∈ st.world.deposits.byId.values, d.user ∈ st.users
  owners : ∀ railAccount, (st.world.accountByRail? railAccount).map (·.user) =
    owner? (rows.take n) railAccount
  opened : ∃ opens : List (Nat × Instruction), opens.Pairwise (·.1 < ·.1) ∧
    (∀ m row, (m, row) ∈ opens ↔ m < n ∧ Opens s rows w m row) ∧
    opens.Forall₂ (fun x d => Tells s x.2 d) st.world.deposits.byId.values

theorem Progress.start : Progress s rows (initialWorld s clock ids) 0
    { world := initialWorld s clock ids } where
  users := List.nodup_nil
  seen _ h := nomatch h
  owners _ := rfl
  opened := ⟨[], .nil, by simp, .nil⟩

theorem exists_left_of_forall₂ {R : α → β → Prop} {xs : List α} {ys : List β} {y : β}
    (h : xs.Forall₂ R ys) (hy : y ∈ ys) : ∃ x ∈ xs, R x y := by
  induction h with
  | nil => cases hy
  | cons hxy _ ih =>
      rcases List.mem_cons.mp hy with rfl | hy
      · exact ⟨_, List.mem_cons_self, hxy⟩
      · obtain ⟨x, hx, hR⟩ := ih hy
        exact ⟨x, List.mem_cons_of_mem _ hx, hR⟩

theorem Progress.told (h : Progress s rows w n st) (hd : d ∈ st.world.deposits.byId.values) :
    ∃ m < n, ∃ row, Opens s rows w m row ∧ Tells s row d := by
  obtain ⟨opens, -, hopens, htells⟩ := h.opened
  obtain ⟨⟨m, row⟩, hmem, hrow⟩ := exists_left_of_forall₂ htells hd
  obtain ⟨hm, hrow'⟩ := (hopens m row).mp hmem
  exact ⟨m, hm, row, hrow', hrow⟩

theorem Progress.stored (h : Progress s rows w n st) (hm : m < n) (hrow : Opens s rows w m row) :
    ∃ d ∈ st.world.deposits.byId.values, Tells s row d := by
  obtain ⟨opens, -, hopens, htells⟩ := h.opened
  exact exists_left_of_forall₂ htells.flip ((hopens m row).mpr ⟨hm, hrow⟩)

theorem Progress.owners_next (h : Progress s rows w n st) (hrow : rows[n]? = some given)
    (hw : Steady s st.world) (hfresh : st.world.FreshFor 3) (htaken : Taken s st st' given)
    (railAccount : String) : (st'.world.accountByRail? railAccount).map (·.user) =
      owner? (rows.take (n + 1)) railAccount := by
  rw [owner?_take_succ hrow, ← h.owners]
  cases htaken with
  | unreadable fault hworld =>
      rw [hworld]
      simp [owner?]
  | carriedOut row r hcarried =>
      have howner := owner_registered row hw
        (hfresh.mono rfl (Nat.add_le_add_left (by decide) _)) railAccount
      have hsame : st'.world.accountByRail? railAccount =
          (registered row st.world).accountByRail? railAccount := by
        unfold World.accountByRail?
        rw [hcarried.accounts]
      rw [hsame, howner]
      by_cases hname : row.railAccount = railAccount <;> simp [owner?, hname]

/-- A row that opens nothing leaves the deposits as they are. -/
theorem Progress.opened_of_not_opens (h : Progress s rows w n st)
    (hrow : ∀ row, ¬ Opens s rows w n row) (hdeposits : st'.world.deposits = st.world.deposits) :
    ∃ opens : List (Nat × Instruction), opens.Pairwise (·.1 < ·.1) ∧
      (∀ m row, (m, row) ∈ opens ↔ m < n + 1 ∧ Opens s rows w m row) ∧
      opens.Forall₂ (fun x d => Tells s x.2 d) st'.world.deposits.byId.values := by
  obtain ⟨opens, hsorted, hopens, htells⟩ := h.opened
  refine ⟨opens, hsorted, fun m row => ?_, by rw [hdeposits]; exact htells⟩
  rw [hopens]
  constructor
  · rintro ⟨hm, hopen⟩
    exact ⟨by omega, hopen⟩
  · rintro ⟨hm, hopen⟩
    have hne : m ≠ n := by
      rintro rfl
      exact hrow row hopen
    exact ⟨by omega, hopen⟩

theorem Progress.opened_of_opens (h : Progress s rows w n st) (hrow : Opens s rows w n row)
    (hfree : st.world.deposits.Free d) (hdeposits : st'.world.deposits = st.world.deposits.put d)
    (hd : Tells s row d) :
    ∃ opens : List (Nat × Instruction), opens.Pairwise (·.1 < ·.1) ∧
      (∀ m row, (m, row) ∈ opens ↔ m < n + 1 ∧ Opens s rows w m row) ∧
      opens.Forall₂ (fun x d => Tells s x.2 d) st'.world.deposits.byId.values := by
  obtain ⟨opens, hsorted, hopens, htells⟩ := h.opened
  refine ⟨opens ++ [(n, row)], ?_, fun m row' => ?_, ?_⟩
  · refine List.pairwise_append.mpr ⟨hsorted, List.pairwise_singleton _ _, ?_⟩
    rintro ⟨m, row'⟩ hmem x hx
    obtain rfl := List.mem_singleton.mp hx
    exact ((hopens m row').mp hmem).1
  · rw [List.mem_append, hopens, List.mem_singleton]
    constructor
    · rintro (⟨hm, hopen⟩ | heq)
      · exact ⟨by omega, hopen⟩
      · cases heq
        exact ⟨Nat.lt_succ_self n, hrow⟩
    · rintro ⟨hm, hopen⟩
      by_cases hmn : m = n
      · subst hmn
        have hsame := hopen.qualifies.readable.symm.trans hrow.qualifies.readable
        cases hsame
        exact .inr rfl
      · exact .inl ⟨by omega, hopen⟩
  · rw [hdeposits, Deposits.values_put hfree.id]
    exact List.rel_append htells (.cons hd .nil)

/-- A row that nothing has stopped opens a deposit. -/
theorem Progress.opens (h : Progress s rows w n st) (hrow : rows[n]? = some (.ok row))
    (hreach : Reaches s rows w n st) (hpass : Passes row st.world)
    (hnamed : Text.isBlankText row.reference = false)
    (howned : owner? rows row.railAccount = some row.user)
    (hunused : ∀ d ∈ st.world.deposits.byId.values, d.reference ≠ row.reference) :
    Opens s rows w n row := by
  refine ⟨⟨hrow, hnamed, ⟨st, hreach, hpass⟩, howned⟩, fun m hm row' hrow' href => ?_⟩
  obtain ⟨k, hk, row'', hopens, href'⟩ := exists_opens hrow'
  obtain ⟨d, hd, htells⟩ := h.stored (by omega) hopens
  exact hunused d hd (htells.reference.trans (href'.trans href))

/-- A row that is carried out opens a deposit, and that is stored, or leaves the deposits as they
are. -/
theorem Progress.stored_next (h : Progress s rows w n st) (hrow : rows[n]? = some (.ok row))
    (hreach : Reaches s rows w n st) (hw : Steady s st.world)
    (howners : ∀ railAccount, (st'.world.accountByRail? railAccount).map (·.user) =
      owner? (rows.take (n + 1)) railAccount)
    (hcarried : Carried s row st.world r st'.world) :
    ¬ Opens s rows w n row ∧ st'.world.deposits = st.world.deposits ∨
      ∃ d, Opens s rows w n row ∧ st.world.deposits.Free d ∧
        st'.world.deposits = st.world.deposits.put d ∧ Tells s row d := by
  have hkept : (registered row st.world).deposits = st.world.deposits :=
    (kept_registered row st.world).deposits
  have howned : ∀ {a}, st'.world.accountByRail? row.railAccount = some a →
      owner? rows row.railAccount = some a.user := fun ha =>
    owner?_of_take ((howners row.railAccount).symm.trans (congrArg (Option.map (·.user)) ha))
  have haccounts : st'.world.accountByRail? row.railAccount =
      (checked row st.world).accountByRail? row.railAccount := by
    unfold World.accountByRail?
    rw [hcarried.accounts]
    rfl
  cases hcarried with
  | overLimit denial _ hpass hw' =>
      refine .inl ⟨fun hopen => ?_, by rcases hw' with hw' | hw' <;> rw [hw'] <;> exact hkept⟩
      obtain ⟨st₀, hreach₀, hpass₀⟩ := hopen.qualifies.passes
      rw [hreach₀.unique hreach] at hpass₀
      exact hpass hpass₀
  | stopped e _ hpass hobstacle hw' =>
      refine .inl ⟨fun hopen => ?_, by rcases hw' with hw' | hw' <;> rw [hw'] <;> exact hkept⟩
      cases hobstacle with
      | unnamed hblank => exact absurd hblank (by simp [hopen.qualifies.named])
      | foreign a ha huser =>
          have hsame := (howned (haccounts.trans ha)).symm.trans hopen.qualifies.owned
          exact huser (Option.some.inj hsame)
      | taken htaken =>
          have htaken : st.world.deposits.byReference.contains row.reference := by
            rw [← hkept]
            exact htaken
          obtain ⟨d, hd, href⟩ :=
            (Deposits.contains_reference_iff hw.sound hw.indexed).mp htaken
          obtain ⟨m, hm, row', hopen', htells⟩ := h.told hd
          exact hopen.first m hm row' hopen'.qualifies (htells.reference.symm.trans href)
  | placed _ _ d hpass _ a hready hplaced htells =>
      have hfree : st.world.deposits.Free d := by
        rw [← hkept]
        exact hplaced.free
      have hput : st'.world.deposits = st.world.deposits.put d := by
        rw [← hkept]
        exact hplaced.deposits
      have huser : owner? rows row.railAccount = some row.user := by
        rw [← hready.user]
        exact howned (haccounts.trans hready.account)
      refine .inr ⟨d, h.opens hrow hreach hpass hready.named huser ?_, hfree, hput, htells⟩
      intro d' hd' href
      refine hready.unused ?_
      have hcontains := (Deposits.contains_reference_iff hw.sound hw.indexed).mpr ⟨d', hd', href⟩
      rw [← hkept] at hcontains
      exact hcontains

theorem nodup_seen (htaken : Taken s st st' given) (h : st.users.Nodup) : st'.users.Nodup := by
  cases htaken with
  | unreadable fault hworld husers =>
      rw [husers]
      exact h
  | carriedOut row r hcarried husers =>
      rw [husers]
      split
      · exact h
      · rename_i hnew
        refine List.nodup_append.mpr ⟨h, by simp, fun u hu v hv huv => ?_⟩
        rw [huv, List.mem_singleton.mp hv] at hu
        exact hnew hu

theorem seen_of_seen (htaken : Taken s st st' given) {u : Uuid} (h : u ∈ st.users) :
    u ∈ st'.users := by
  cases htaken with
  | unreadable fault hworld husers =>
      rw [husers]
      exact h
  | carriedOut row r hcarried husers =>
      rw [husers]
      split
      · exact h
      · exact List.mem_append_left _ h

theorem user_seen (htaken : Taken s st st' (.ok row)) : row.user ∈ st'.users := by
  cases htaken with
  | carriedOut _ r hcarried husers =>
      rw [husers]
      split
      · assumption
      · simp

theorem Progress.next (hreach : Reaches s rows w n st) (hrow : rows[n]? = some given)
    (hw : Steady s st.world) (hfresh : st.world.FreshFor 3) (htaken : Taken s st st' given)
    (h : Progress s rows w n st) : Progress s rows w (n + 1) st' := by
  have howners := h.owners_next hrow hw hfresh htaken
  have hnodup := nodup_seen htaken h.users
  have hseen : ∀ d ∈ st.world.deposits.byId.values, d.user ∈ st'.users := fun d hd =>
    seen_of_seen htaken (h.seen d hd)
  have hself : ∀ {row}, given = .ok row → row.user ∈ st'.users := by
    rintro row rfl
    exact user_seen htaken
  cases htaken with
  | unreadable fault hworld =>
      have hnone : ∀ row, ¬ Opens s rows w n row := fun row hopen =>
        nomatch hopen.qualifies.readable.symm.trans hrow
      exact ⟨hnodup, by rw [hworld]; exact hseen, howners,
        h.opened_of_not_opens hnone (by rw [hworld])⟩
  | carriedOut row r hcarried =>
      rcases h.stored_next hrow hreach hw howners hcarried with
        ⟨hnot, hdeposits⟩ | ⟨d, hopen, hfree, hdeposits, htells⟩
      · refine ⟨hnodup, by rw [hdeposits]; exact hseen, howners,
          h.opened_of_not_opens (fun row' hopen => ?_) hdeposits⟩
        have hsame := hopen.qualifies.readable.symm.trans hrow
        cases hsame
        exact hnot hopen
      · refine ⟨hnodup, fun d' hd' => ?_, howners, h.opened_of_opens hopen hfree hdeposits htells⟩
        rw [hdeposits, Deposits.values_put hfree.id] at hd'
        rcases List.mem_append.mp hd' with hd' | hd'
        · exact hseen d' hd'
        · obtain rfl := List.mem_singleton.mp hd'
          rw [htells.user]
          exact hself rfl

theorem Progress.unmoved (h : Progress s rows w n st) (husers : st'.users = st.users)
    (hmoved : World.Unmoved st.world st'.world) : Progress s rows w n st' where
  users := by rw [husers]; exact h.users
  seen := by rw [husers, hmoved.deposits]; exact h.seen
  owners railAccount := by
    rw [← h.owners, World.accountByRail?, World.accountByRail?, hmoved.accounts]
  opened := by rw [hmoved.deposits]; exact h.opened

/-! ## The report -/

/-- What the lines of a report have to do with the rows and with what is stored. The first cell of a
line is the reference. -/
structure Told (s : Settings) (rows : List (Except Instruction.RowFault Instruction)) (w : World)
    (stored : List Deposit) (lines : List (List String)) : Prop where
  /-- In the order of creation there is a line for each stored deposit. -/
  complete : ∃ reported : List Deposit, reported.Perm stored ∧
    reported.Pairwise (·.createdAt ≤ ·.createdAt) ∧ lines = reported.map Report.row
  ordered : stored.Pairwise (·.createdAt < ·.createdAt) → lines = stored.map Report.row
  distinct : (lines.map List.head?).Nodup
  reported_iff : ∀ reference, (∃ line ∈ lines, line.head? = some reference) ↔
    ∃ n row, Qualifies s rows w n row ∧ row.reference = reference
  truthful : ∀ line ∈ lines, ∃ n row, Opens s rows w n row ∧ Says s row line
  /-- In the order of the rows. -/
  opened : ∃ opens : List (Nat × Instruction), opens.Pairwise (·.1 < ·.1) ∧
    (∀ n row, (n, row) ∈ opens ↔ Opens s rows w n row) ∧
    opens.Forall₂ (fun x d => Tells s x.2 d ∧ Says s x.2 (Report.row d)) stored

theorem deposits_perm (h : Progress s rows w n st) :
    (st.users.flatMap st.world.deposits.ofUser).Perm st.world.deposits.byId.values := by
  refine List.Perm.trans ?_ (Deposits.collected_perm h.users h.seen)
  exact List.Perm.flatMap_left _ fun u _ => Deposits.byCreation_perm _

theorem Progress.references_nodup (h : Progress s rows w n st) :
    (st.world.deposits.byId.values.map (·.reference)).Nodup := by
  obtain ⟨opens, hsorted, hopens, htells⟩ := h.opened
  have hsame : opens.map (·.2.reference) = st.world.deposits.byId.values.map (·.reference) := by
    rw [← List.forall₂_eq_eq_eq, List.forall₂_map_left_iff, List.forall₂_map_right_iff]
    exact htells.imp fun x d hd => hd.reference.symm
  rw [← hsame, List.Nodup, List.pairwise_map]
  refine hsorted.imp_of_mem fun {x y} hx hy hlt href => ?_
  have hx := ((hopens x.1 x.2).mp hx).2
  have hy := ((hopens y.1 y.2).mp hy).2
  have heq := hx.inj hy href
  omega

theorem Progress.tells (h : Progress s rows w rows.length st) :
    Told s rows w st.world.deposits.byId.values (st.deposits.map Report.row) := by
  have hcollected := deposits_perm h
  have hperm : st.deposits.Perm st.world.deposits.byId.values :=
    (Deposits.byCreation_perm _).trans hcollected
  have hlt : ∀ {n row}, Opens s rows w n row → n < rows.length := fun hopen =>
    (List.getElem?_eq_some_iff.mp hopen.qualifies.readable).1
  have htruthful : ∀ line ∈ st.deposits.map Report.row, ∃ n row, Opens s rows w n row ∧
      Says s row line := by
    intro line hline
    obtain ⟨d, hd, rfl⟩ := List.mem_map.mp hline
    obtain ⟨n, -, row, hopen, htells⟩ := h.told (hperm.mem_iff.mp hd)
    exact ⟨n, row, hopen, htells.says_row⟩
  have hheads : (st.deposits.map Report.row).map List.head? =
      (st.deposits.map (·.reference)).map some := by
    rw [List.map_map, List.map_map]
    rfl
  refine
    { complete := ⟨st.deposits, hperm, Deposits.byCreation_sorted _, rfl⟩
      ordered := fun hsorted =>
        congrArg (List.map Report.row) (Deposits.byCreation_eq_of_perm hcollected hsorted)
      distinct := ?_
      reported_iff := fun reference => ⟨?_, ?_⟩
      truthful := htruthful
      opened := ?_ }
  · rw [hheads]
    exact ((hperm.map _).nodup_iff.mpr h.references_nodup).map (Option.some_injective _)
  · rintro ⟨line, hline, hreference⟩
    obtain ⟨n, row, hopen, hcells⟩ := htruthful line hline
    exact ⟨n, row, hopen.qualifies, Option.some.inj (hcells.head?.symm.trans hreference)⟩
  · rintro ⟨n, row, hqualifies, rfl⟩
    obtain ⟨m, -, row', hopen, href⟩ := exists_opens hqualifies
    obtain ⟨d, hd, htells⟩ := h.stored (hlt hopen) hopen
    exact ⟨Report.row d, List.mem_map_of_mem (hperm.mem_iff.mpr hd),
      htells.says_row.head?.trans (congrArg some href)⟩
  · obtain ⟨opens, hsorted, hopens, htells⟩ := h.opened
    refine ⟨opens, hsorted, fun n row => ?_, htells.imp fun x d hd => ⟨hd, hd.says_row⟩⟩
    rw [hopens]
    exact and_iff_right_of_imp hlt

/-- A replay that does not overflow ends in a report, and what is read from its text is a line for
each deposit that the rows have opened. -/
theorem run_told (hs : s.validate = .ok ())
    (hfresh : (initialWorld s clock ids).FreshFor (4 * rows.length)) {ending : Ending}
    (h : run s rows (initialWorld s clock ids) = (ending, st)) (hflow : ∀ o, ending ≠ .overflow o) :
    ∃ text lines, ending = .report text ∧ Report.Shows text lines ∧
      Told s rows (initialWorld s clock ids) st.world.deposits.byId.values lines := by
  have hworkable := Settings.workable_of_valid hs
  obtain ⟨st₀, hreach, husers, hmoved, hending⟩ := reaches_of_run hworkable hfresh h hflow
  obtain ⟨-, hprogress⟩ := hreach.rule (P := Progress s rows (initialWorld s clock ids)) hworkable
    hfresh .start (fun n given st st' hrow hreach hunder hfresh htaken hprogress =>
      hprogress.next hreach hrow hunder.steady hfresh htaken) (Nat.le_refl _)
  exact ⟨_, _, hending, Report.shows_render st.deposits,
    (hprogress.unmoved husers hmoved).tells⟩

/-- Two rows under one reference, one that cannot be read and one over the limit. -/
def sampleRows : List (Except Instruction.RowFault Instruction) :=
  [.ok (sampleRow 1 "a" (sampleAmount 50 (by decide)) .pending),
    .error ⟨.unreadable, 1, 3⟩,
    .ok (sampleRow 1 "a" (sampleAmount 60 (by decide)) .completed),
    .ok (sampleRow 1 "b" (sampleAmount 600 (by decide)) .completed)]

theorem run_told_sampleRows : ∃ ending st text lines,
    run .standard sampleRows (initialWorld .standard (fun _ => .epoch) .ofNat) = (ending, st) ∧
      ending = .report text ∧ Report.Shows text lines ∧ lines.length = 1 ∧
      Told .standard sampleRows (initialWorld .standard (fun _ => .epoch) .ofNat)
        st.world.deposits.byId.values lines := by
  have hrun : (run .standard sampleRows
        (initialWorld .standard (fun _ => .epoch) .ofNat)).1.isReport ∧
      (run .standard sampleRows (initialWorld .standard (fun _ => .epoch) .ofNat)
        ).2.world.deposits.byId.values.length = 1 := by decide +kernel
  rcases hsample : run .standard sampleRows (initialWorld .standard (fun _ => .epoch) .ofNat) with
    ⟨ending, st⟩
  rw [hsample] at hrun
  obtain ⟨hreport, hcount⟩ := hrun
  obtain ⟨text, rfl⟩ := Ending.exists_of_isReport hreport
  have hfresh : (initialWorld .standard (fun _ => .epoch) .ofNat).FreshFor
      (4 * sampleRows.length) := freshFor_initialWorld .standard _ (by simp [sampleRows])
  have hflow : ∀ o, Ending.report text ≠ .overflow o := by
    rintro o ⟨⟩
  obtain ⟨text', lines, hending, hshows, htold⟩ :=
    run_told Settings.validate_standard hfresh hsample hflow
  obtain ⟨reported, hperm, -, hlines⟩ := htold.complete
  have hlength : lines.length = 1 := by
    rw [hlines, List.length_map, hperm.length_eq, hcount]
  exact ⟨_, st, text', lines, rfl, hending, hshows, hlength, htold⟩

end Replay

end Causeway
