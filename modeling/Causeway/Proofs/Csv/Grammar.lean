import Causeway.Csv.Reader

/-!
# The grammar of CSV

A table is made of lines, a line of fields with commas between them, and a field stands as it is or
in quotes, inside which a quote is doubled. The reader reads each table as the rows that the grammar
gives it (`map_fields_records`), so no bytes are a table of two kinds of rows.
-/

namespace Causeway.Csv

variable {b : UInt8} {t v : Bytes} {vs : List Bytes}

/-! ## Grammar -/

/-- A byte that ends no field. -/
def Ordinary (b : UInt8) : Prop := b ≠ 0x2C ∧ isLineEnd b = false

/-- The text between the quotes of a field, with what it stands for. -/
inductive Quoted : Bytes → Bytes → Prop
  | nil : Quoted [] []
  | byte {b : UInt8} {t v : Bytes} (hb : b ≠ 0x22) (h : Quoted t v) : Quoted (b :: t) (b :: v)
  | quote {t v : Bytes} (h : Quoted t v) : Quoted (0x22 :: 0x22 :: t) (0x22 :: v)

/-- A field as it is written, with what it stands for. What follows a closing quote belongs to the
field as it is. -/
inductive Field : Bytes → Bytes → Prop
  | plain {t : Bytes} (hopen : t.head? ≠ some 0x22) (h : ∀ b ∈ t, Ordinary b) : Field t t
  | quoted {t v rest : Bytes} (ht : Quoted t v) (hopen : rest.head? ≠ some 0x22)
      (h : ∀ b ∈ rest, Ordinary b) : Field (0x22 :: (t ++ 0x22 :: rest)) (v ++ rest)

/-- The fields of a line, the quotes of which are all closed. -/
inductive Line : Bytes → List Bytes → Prop
  | last {t v : Bytes} (h : Field t v) : Line t [v]
  | cons {t v ts : Bytes} {vs : List Bytes} (h : Field t v) (hs : Line ts vs) :
      Line (t ++ 0x2C :: ts) (v :: vs)

/-- Lines with the bytes that end them. An empty line is no row. -/
inductive Table : Bytes → List (List Bytes) → Prop
  | nil : Table [] []
  | blank {b : UInt8} {ts : Bytes} {rows : List (List Bytes)} (hb : isLineEnd b)
      (hs : Table ts rows) : Table (b :: ts) rows
  | last {t : Bytes} {vs : List Bytes} (h : Line t vs) (hne : t ≠ []) : Table t [vs]
  | cons {b : UInt8} {t ts : Bytes} {vs : List Bytes} {rows : List (List Bytes)} (h : Line t vs)
      (hne : t ≠ []) (hb : isLineEnd b) (hs : Table ts rows) : Table (t ++ b :: ts) (vs :: rows)

theorem Quoted.append {t' v' : Bytes} (h : Quoted t v) (h' : Quoted t' v') :
    Quoted (t ++ t') (v ++ v') := by
  induction h with
  | nil => exact h'
  | byte hb _ ih => exact .byte hb ih
  | quote _ ih => exact .quote ih

theorem Line.ne_nil {t v w : Bytes} {vs : List Bytes} (h : Line t (v :: w :: vs)) : t ≠ [] := by
  cases h with
  | cons _ _ => simp

inductive LineBreak : Bytes → Prop
  | feed : LineBreak [0x0A]
  | back : LineBreak [0x0D]
  | both : LineBreak [0x0D, 0x0A]

/-- A line that is not empty, with its break. -/
inductive EndedLine : Bytes → List Bytes → Prop
  | intro {t e : Bytes} {vs : List Bytes} (h : Line t vs) (hne : t ≠ []) (he : LineBreak e) :
      EndedLine (t ++ e) vs

theorem EndedLine.table {bs ts : Bytes} {rows : List (List Bytes)} (h : EndedLine bs vs)
    (hs : Table ts rows) : Table (bs ++ ts) (vs :: rows) := by
  cases h with
  | intro h hne he =>
    rw [List.append_assoc]
    cases he with
    | feed => exact .cons h hne rfl hs
    | back => exact .cons h hne rfl hs
    | both => exact .cons h hne rfl (.blank rfl hs)

theorem Field.head_not_lineEnd (h : Field t v) (rest : Bytes) (hne : t ++ rest ≠ [])
    (hrest : ∀ b ∈ rest.head?, isLineEnd b = false) :
    ∃ b bs, t ++ rest = b :: bs ∧ isLineEnd b = false := by
  cases h with
  | plain _ hall =>
    cases t with
    | nil =>
      cases rest with
      | nil => exact absurd rfl hne
      | cons b bs => exact ⟨b, bs, rfl, hrest b rfl⟩
    | cons b bs => exact ⟨b, bs ++ rest, rfl, (hall b (by simp)).2⟩
  | quoted _ _ _ => exact ⟨0x22, _, rfl, rfl⟩

/-- A line does not begin with the end of one. -/
theorem Line.head_not_lineEnd (h : Line t vs) (hne : t ≠ []) :
    ∃ b bs, t = b :: bs ∧ isLineEnd b = false := by
  cases h with
  | last h =>
    have hlast := h.head_not_lineEnd [] (by simpa using hne) (by simp)
    rwa [List.append_nil] at hlast
  | cons h _ => exact h.head_not_lineEnd _ hne (by simp; decide)

/-! ## Lines by their bytes -/

/-- A field may end. -/
def Mode.MayEnd (m : Mode) : Prop := m = .fieldStart ∨ m = .plain ∨ m = .afterQuote

instance (m : Mode) : Decidable m.MayEnd := inferInstanceAs (Decidable (_ ∨ _))

/-- The mode after a byte that ends no field. -/
def Mode.after : Mode → UInt8 → Mode
  | .fieldStart, b => if b = 0x22 then .quoted else .plain
  | .quoted, b => if b = 0x22 then .afterQuote else .quoted
  | .afterQuote, b => if b = 0x22 then .quoted else .plain
  | _, _ => .plain

/-- Whether the bytes end the line that is being read without ending it before, all quotes closed. -/
def closes (m : Mode) : Bytes → Bool
  | [] => m.MayEnd
  | b :: t =>
    if m.MayEnd ∧ b = 0x2C then closes .fieldStart t
    else if m.MayEnd ∧ isLineEnd b then false
    else closes (m.after b) t

/-- The beginnings of a field. -/
inductive Begun : Mode → Bytes → Prop
  | fieldStart : Begun .fieldStart []
  | plain {b : UInt8} {p : Bytes} (hb : b ≠ 0x22) (h : ∀ c ∈ b :: p, Ordinary c) :
      Begun .plain (b :: p)
  | quoted {p v : Bytes} (hp : Quoted p v) : Begun .quoted (0x22 :: p)
  | afterQuote {p v : Bytes} (hp : Quoted p v) : Begun .afterQuote (0x22 :: (p ++ [0x22]))
  | tail {b : UInt8} {p v q : Bytes} (hp : Quoted p v) (hb : b ≠ 0x22)
      (h : ∀ c ∈ b :: q, Ordinary c) : Begun .plain (0x22 :: (p ++ 0x22 :: b :: q))

theorem Begun.field {m : Mode} {p : Bytes} (h : Begun m p) (hm : m.MayEnd) : ∃ v, Field p v := by
  cases h with
  | fieldStart => exact ⟨_, .plain (by simp) (by simp)⟩
  | plain hb hall => exact ⟨_, .plain (by simpa using hb) hall⟩
  | quoted _ => exact absurd hm (by decide)
  | afterQuote hp => exact ⟨_, .quoted hp (by simp) (by simp)⟩
  | tail hp hb hall => exact ⟨_, .quoted hp (by simpa using hb) hall⟩

theorem Begun.after {m : Mode} {p : Bytes} (h : Begun m p) (hb : m.MayEnd → Ordinary b) :
    Begun (m.after b) (p ++ [b]) := by
  cases h with
  | fieldStart =>
    by_cases hquote : b = 0x22
    · subst hquote
      exact .quoted .nil
    · rw [Mode.after, if_neg hquote]
      exact .plain hquote (by simpa using hb (by decide))
  | plain hc hall =>
    rw [List.cons_append]
    refine .plain hc fun c hmem => ?_
    rw [← List.cons_append, List.mem_append, List.mem_singleton] at hmem
    rcases hmem with hmem | rfl
    · exact hall c hmem
    · exact hb (by decide)
  | quoted hp =>
    by_cases hquote : b = 0x22
    · subst hquote
      exact .afterQuote hp
    · rw [Mode.after, if_neg hquote]
      exact .quoted (hp.append (.byte hquote .nil))
  | afterQuote hp =>
    rw [List.cons_append, List.append_assoc]
    by_cases hquote : b = 0x22
    · subst hquote
      exact .quoted (hp.append (.quote .nil))
    · rw [Mode.after, if_neg hquote]
      exact .tail hp hquote (by simpa using hb (by decide))
  | tail hp hc hall =>
    rw [List.cons_append, List.append_assoc, List.cons_append, List.cons_append]
    refine .tail hp hc fun c hmem => ?_
    rw [← List.cons_append, List.mem_append, List.mem_singleton] at hmem
    rcases hmem with hmem | rfl
    · exact hall c hmem
    · exact hb (by decide)

theorem exists_line_of_closes {m : Mode} {p : Bytes} (hp : Begun m p) (h : closes m t) :
    ∃ vs, Line (p ++ t) vs := by
  induction t generalizing m p with
  | nil =>
    obtain ⟨v, hfield⟩ := hp.field (of_decide_eq_true h)
    exact ⟨[v], by simpa using .last hfield⟩
  | cons b t ih =>
    rw [closes] at h
    split at h
    · rename_i hcomma
      obtain ⟨hm, rfl⟩ := hcomma
      obtain ⟨v, hfield⟩ := hp.field hm
      obtain ⟨vs, hline⟩ := ih .fieldStart h
      exact ⟨v :: vs, .cons hfield hline⟩
    · rename_i hcomma
      split at h
      · cases h
      · rename_i hend
        have hb : m.MayEnd → Ordinary b := fun hm =>
          ⟨fun heq => hcomma ⟨hm, heq⟩, Bool.eq_false_iff.mpr fun heq => hend ⟨hm, heq⟩⟩
        obtain ⟨vs, hline⟩ := ih (hp.after hb) h
        rw [List.append_assoc] at hline
        exact ⟨vs, hline⟩

/-! ## Reading byte by byte -/

namespace Scan

variable {s s' : Scan} {m m' : Mode} {f f' bs : Bytes} {fs fs' : List Bytes}
  {rows : List (List Bytes)}

/-- The state has read some fields and begun one, at whatever place. -/
structure Has (s : Scan) (m : Mode) (f : Bytes) (fs : List Bytes) : Prop where
  mode : s.mode = m
  field : s.field = f
  fields : s.fields = fs

/-- The rows that the reader gives on the bytes from a state on. -/
def Gives (m : Mode) (f : Bytes) (fs : List Bytes) (bs : Bytes) (rows : List (List Bytes)) : Prop :=
  ∀ s : Scan, s.Has m f fs → (s.records bs).map Record.fields = rows

theorem Gives.of_step (h : Gives m' f' fs' bs rows)
    (hstep : ∀ s : Scan, s.Has m f fs → (s.step b).2 = none ∧ (s.step b).1.Has m' f' fs') :
    Gives m f fs (b :: bs) rows := by
  intro s hs
  obtain ⟨hnone, hnext⟩ := hstep s hs
  rw [records]
  split
  · rename_i heq
    rw [heq] at hnone
    cases hnone
  · rename_i heq
    rw [heq] at hnext
    exact h _ hnext

/-- The place after a byte. -/
def noting (s : Scan) (b : UInt8) : Scan := if b = 0x0A then { s with line := s.line + 1 } else s

theorem Has.noting (h : s.Has m f fs) (b : UInt8) : (s.noting b).Has m f fs := by
  unfold Scan.noting
  split
  · exact ⟨h.mode, h.field, h.fields⟩
  · exact h

theorem step_of_mayEnd (hm : m.MayEnd) (h : s.Has m f fs) (hb : m = .plain ∨ b ≠ 0x22) :
    s.step b = (s.noting b).stepPlain b := by
  have hmode := (h.noting b).mode
  unfold step
  unfold noting at hmode ⊢
  rcases hm with rfl | rfl | rfl
  · simp only [hmode]
    exact if_neg (hb.resolve_left (by decide))
  · simp only [hmode]
  · simp only [hmode]
    exact if_neg (hb.resolve_left (by decide))

theorem step_of_fieldStart (h : s.Has .fieldStart f fs) : s.step b = (s.noting b).stepStart b := by
  have hmode := (h.noting b).mode
  unfold step
  unfold noting at hmode ⊢
  simp only [hmode]

theorem step_of_quoted (h : s.Has .quoted f fs) :
    s.step b = if b = 0x22 then ({ s.noting b with mode := .afterQuote }, none)
      else ({ s.noting b with field := b :: (s.noting b).field }, none) := by
  have hmode := (h.noting b).mode
  unfold step
  unfold noting at hmode ⊢
  simp only [hmode]

theorem step_of_afterQuote (h : s.Has .afterQuote f fs) :
    s.step 0x22 =
      ({ s.noting 0x22 with mode := .quoted, field := 0x22 :: (s.noting 0x22).field }, none) := by
  have hmode := (h.noting 0x22).mode
  unfold step
  unfold noting at hmode ⊢
  simp only [hmode]
  rfl

theorem step_of_betweenRecords (h : s.Has .betweenRecords f fs) :
    s.step b = if isLineEnd b then (s.noting b, none) else (s.noting b).stepStart b := by
  have hmode := (h.noting b).mode
  unfold step
  unfold noting at hmode ⊢
  simp only [hmode]

theorem Gives.ordinary (hm : m.MayEnd) (hb : Ordinary b) (hquote : m = .plain ∨ b ≠ 0x22)
    (h : Gives .plain (b :: f) fs bs rows) : Gives m f fs (b :: bs) rows := by
  refine h.of_step fun s hs => ?_
  have hnoting := hs.noting b
  rw [step_of_mayEnd hm hs hquote, stepPlain, if_neg hb.1, if_neg (by simp [hb.2])]
  exact ⟨rfl, rfl, by rw [← hnoting.field], hnoting.fields⟩

theorem Gives.comma (hm : m.MayEnd) (h : Gives .fieldStart [] (f.reverse :: fs) bs rows) :
    Gives m f fs (0x2C :: bs) rows := by
  refine h.of_step fun s hs => ?_
  have hnoting := hs.noting 0x2C
  rw [step_of_mayEnd hm hs (.inr (by decide)), stepPlain, if_pos rfl]
  exact ⟨rfl, rfl, rfl, by rw [← hnoting.field, ← hnoting.fields]; rfl⟩

theorem Gives.openQuote (h : Gives .quoted f fs bs rows) :
    Gives .fieldStart f fs (0x22 :: bs) rows := by
  refine h.of_step fun s hs => ?_
  have hnoting := hs.noting 0x22
  rw [step_of_fieldStart hs, stepStart, if_pos rfl]
  exact ⟨rfl, rfl, hnoting.field, hnoting.fields⟩

theorem Gives.inQuotes (hb : b ≠ 0x22) (h : Gives .quoted (b :: f) fs bs rows) :
    Gives .quoted f fs (b :: bs) rows := by
  refine h.of_step fun s hs => ?_
  have hnoting := hs.noting b
  rw [step_of_quoted hs, if_neg hb]
  exact ⟨rfl, hnoting.mode, by rw [← hnoting.field], hnoting.fields⟩

theorem Gives.closeQuote (h : Gives .afterQuote f fs bs rows) :
    Gives .quoted f fs (0x22 :: bs) rows := by
  refine h.of_step fun s hs => ?_
  have hnoting := hs.noting 0x22
  rw [step_of_quoted hs, if_pos rfl]
  exact ⟨rfl, rfl, hnoting.field, hnoting.fields⟩

theorem Gives.doubled (h : Gives .quoted (0x22 :: f) fs bs rows) :
    Gives .afterQuote f fs (0x22 :: bs) rows := by
  refine h.of_step fun s hs => ?_
  have hnoting := hs.noting 0x22
  rw [step_of_afterQuote hs]
  exact ⟨rfl, rfl, by rw [← hnoting.field], hnoting.fields⟩

theorem Gives.blank (hb : isLineEnd b) (h : Gives .betweenRecords [] [] bs rows) :
    Gives .betweenRecords [] [] (b :: bs) rows := by
  refine h.of_step fun s hs => ?_
  rw [step_of_betweenRecords hs, if_pos hb]
  exact ⟨rfl, hs.noting b⟩

/-- A line begins as any field does. -/
theorem Gives.begin (hb : isLineEnd b = false) (h : Gives .fieldStart [] [] (b :: bs) rows) :
    Gives .betweenRecords [] [] (b :: bs) rows := by
  intro s hs
  have hstart : ({ s with mode := .fieldStart } : Scan).Has .fieldStart [] [] :=
    ⟨rfl, hs.field, hs.fields⟩
  have hnoting : ({ s with mode := .fieldStart } : Scan).noting b =
      { s.noting b with mode := .fieldStart } := by
    unfold noting
    split <;> rfl
  have hstep : ({ s with mode := .fieldStart } : Scan).step b = s.step b := by
    rw [step_of_fieldStart hstart, step_of_betweenRecords hs, if_neg (by simp [hb]), hnoting]
    unfold stepStart stepPlain
    split
    · rfl
    · split
      · rfl
      · split <;> rfl
  have hrecords := h _ hstart
  rw [records, hstep] at hrecords
  rw [records]
  exact hrecords

theorem Gives.lineEnd (hm : m.MayEnd) (hb : isLineEnd b)
    (h : Gives .betweenRecords [] [] bs rows) :
    Gives m f fs (b :: bs) ((f.reverse :: fs).reverse :: rows) := by
  intro s hs
  have hnoting := hs.noting b
  have hquote : b ≠ 0x22 := by
    rintro rfl
    cases hb
  have hcomma : b ≠ 0x2C := by
    rintro rfl
    cases hb
  rw [records, step_of_mayEnd hm hs (.inr hquote), stepPlain, if_neg hcomma, if_pos hb]
  simp only [List.map_cons]
  rw [h _ ⟨rfl, rfl, rfl⟩, ← hnoting.field, ← hnoting.fields]
  rfl

theorem Gives.done (hm : m.MayEnd) : Gives m f fs [] [(f.reverse :: fs).reverse] := by
  intro s hs
  have hbetween : s.mode ≠ .betweenRecords := by
    rw [hs.mode]
    rintro rfl
    rcases hm with h | h | h <;> cases h
  rw [records, if_neg hbetween, ← hs.field, ← hs.fields]
  rfl

/-! ## Reading the parts of a table -/

theorem Gives.plain (hall : ∀ b ∈ t, Ordinary b) (h : Gives .plain (t.reverse ++ f) fs bs rows) :
    Gives .plain f fs (t ++ bs) rows := by
  induction t generalizing f with
  | nil => exact h
  | cons b t ih =>
    refine .ordinary (.inr (.inl rfl)) (hall b (by simp)) (.inl rfl) ?_
    exact ih (fun b hb => hall b (by simp [hb])) (by simpa using h)

/-- A field that stands as it is, or what follows a closing quote. -/
theorem Gives.unquoted (hm : m.MayEnd) (hopen : t.head? ≠ some 0x22) (hall : ∀ b ∈ t, Ordinary b)
    (h : ∀ m, m.MayEnd → Gives m (t.reverse ++ f) fs bs rows) : Gives m f fs (t ++ bs) rows := by
  cases t with
  | nil => exact h m hm
  | cons b t =>
    refine .ordinary hm (hall b (by simp)) (.inr (by simpa using hopen)) ?_
    refine .plain (fun b hb => hall b (by simp [hb])) ?_
    simpa using h .plain (.inr (.inl rfl))

theorem Gives.quoted (ht : Quoted t v) (h : Gives .afterQuote (v.reverse ++ f) fs bs rows) :
    Gives .quoted f fs (t ++ 0x22 :: bs) rows := by
  induction ht generalizing f with
  | nil => exact .closeQuote h
  | byte hb _ ih => exact .inQuotes hb (ih (by simpa using h))
  | quote _ ih => exact .closeQuote (.doubled (ih (by simpa using h)))

theorem Gives.field (ht : Field t v) (h : ∀ m, m.MayEnd → Gives m v.reverse fs bs rows) :
    Gives .fieldStart [] fs (t ++ bs) rows := by
  cases ht with
  | plain hopen hall => exact .unquoted (.inl rfl) hopen hall (by simpa using h)
  | quoted ht hopen hall =>
    rw [List.cons_append, List.append_assoc, List.cons_append]
    refine .openQuote (.quoted ht (.unquoted (.inr (.inr rfl)) hopen hall ?_))
    simpa using h

theorem Gives.line (ht : Line t vs)
    (h : ∀ m f fs', m.MayEnd → (f.reverse :: fs').reverse = fs.reverse ++ vs → Gives m f fs' bs rows) :
    Gives .fieldStart [] fs (t ++ bs) rows := by
  induction ht generalizing fs with
  | last ht => exact .field ht fun m hm => h m _ _ hm (by simp)
  | cons ht _ ih =>
    rw [List.append_assoc, List.cons_append]
    refine .field ht fun m hm => .comma hm (ih fun m f fs' hm hfs => h m f fs' hm ?_)
    rw [hfs]
    simp

theorem Gives.table {t : Bytes} {rows : List (List Bytes)} (h : Table t rows) :
    Gives .betweenRecords [] [] t rows := by
  induction h with
  | nil =>
    intro s hs
    rw [records, if_pos hs.mode]
    rfl
  | blank hb _ ih => exact .blank hb ih
  | last ht hne =>
    obtain ⟨b, bs, rfl, hb⟩ := ht.head_not_lineEnd hne
    rw [← List.append_nil (b :: bs)]
    refine .begin hb (.line ht fun m f fs hm hfs => ?_)
    have hdone : Gives m f fs [] [(f.reverse :: fs).reverse] := .done hm
    rwa [hfs] at hdone
  | cons ht hne hb _ ih =>
    obtain ⟨c, bs, rfl, hc⟩ := ht.head_not_lineEnd hne
    refine .begin hc (.line ht fun m f fs hm hfs => ?_)
    have hend : Gives m f fs _ ((f.reverse :: fs).reverse :: _) := .lineEnd hm hb ih
    rwa [hfs] at hend

end Scan

/-- The reader gives each table the rows of the grammar, once a mark of the byte order is left out. -/
theorem map_fields_records {bs : Bytes} {rows : List (List Bytes)} (h : Table (skipMark bs) rows) :
    (records bs).map Record.fields = rows :=
  Scan.Gives.table h _ ⟨rfl, rfl, rfl⟩

end Causeway.Csv
