import Mathlib.Data.List.Forall2
import Mathlib.Data.List.Nodup

/-!
# Comma-separated values

The grammar of RFC 4180 over any alphabet, and a parser for it: a record ends with a line feed, which a carriage return
may precede; a field is bare, or stands between quotes with each quote of its own doubled. Any text at all falls into records where
line feeds stand outside quotes, and where the parser reads it these are its records.
-/

namespace SlickPerfmon.Library.Csv

/-- The four characters with a meaning. -/
structure Dialect (α : Type) where
  sep : α
  quote : α
  cr : α
  lf : α
  nodup : [sep, quote, cr, lf].Nodup

namespace Dialect

variable {α : Type} {d : Dialect α}

theorem quote_ne_sep : d.quote ≠ d.sep := fun h => by
  have := d.nodup
  simp [h] at this

theorem lf_ne_sep : d.lf ≠ d.sep := fun h => by
  have := d.nodup
  simp [h] at this

theorem quote_ne_lf : d.quote ≠ d.lf := fun h => by
  have := d.nodup
  simp [h] at this

theorem quote_ne_cr : d.quote ≠ d.cr := fun h => by
  have := d.nodup
  simp [h] at this

end Dialect

section Grammar

variable {α : Type} [DecidableEq α] (d : Dialect α)

def Dialect.Special (c : α) : Prop := c = d.sep ∨ c = d.quote ∨ c = d.cr ∨ c = d.lf

instance : DecidablePred d.Special := fun c =>
  inferInstanceAs (Decidable (c = d.sep ∨ c = d.quote ∨ c = d.cr ∨ c = d.lf))

/-- A field that may stand as it is. -/
def Dialect.Plain (s : List α) : Prop := ∀ c ∈ s, ¬ d.Special c

/-- Each quote doubled. -/
def Dialect.double (s : List α) : List α := s.flatMap fun c => if c = d.quote then [d.quote, c] else [c]

/-- `text` stands for the field `s`. -/
inductive Encodes : List α → List α → Prop
  | bare {s : List α} (h : d.Plain s) : Encodes s s
  | quoted (s : List α) : Encodes (d.quote :: d.double s ++ [d.quote]) s

/-- A record from the texts of its fields. -/
def Dialect.line (text : List α) (texts : List (List α)) : List α :=
  text ++ texts.flatMap (fun t => d.sep :: t) ++ [d.lf]

end Grammar

/-! ## The parser -/

/-- Where in a field the parser stands. -/
inductive Mode
  | start
  | bare
  | quoted
  /-- After a quote inside a quoted field: its end, or the first of two. -/
  | closed
  | cr
deriving DecidableEq, Repr

structure Scan (α : Type) where
  mode : Mode
  field : List α
  fields : List (List α)
  records : List (List (List α))

namespace Scan

variable {α : Type}

/-- At the start of a record. -/
def fresh (records : List (List (List α))) : Scan α := ⟨.start, [], [], records⟩

def endField (s : Scan α) : Scan α := { s with mode := .start, field := [], fields := s.fields ++ [s.field] }

def endRecord (s : Scan α) : Scan α := fresh (s.records ++ [s.fields ++ [s.field]])

variable [DecidableEq α] (d : Dialect α)

def step (s : Scan α) (c : α) : Option (Scan α) :=
  match s.mode with
  | .quoted =>
      if c = d.quote then some { s with mode := .closed } else some { s with field := s.field ++ [c] }
  | .cr => if c = d.lf then some s.endRecord else none
  | m =>
      if c = d.sep then some s.endField
      else if c = d.lf then some s.endRecord
      else if c = d.cr then some { s with mode := .cr }
      else if c = d.quote then
        match m with
        | .start => some { s with mode := .quoted }
        | .closed => some { s with mode := .quoted, field := s.field ++ [c] }
        | _ => none
      else if m = .closed then none
      else some { s with mode := .bare, field := s.field ++ [c] }

/-- The end of the text; the last record may do without its line feed. -/
def finish (s : Scan α) : Option (List (List (List α))) :=
  match s.mode with
  | .quoted => none
  | .cr => none
  | .start => if s.fields = [] then some s.records else some s.endRecord.records
  | _ => some s.endRecord.records

end Scan

def parse {α : Type} [DecidableEq α] (d : Dialect α) (text : List α) : Option (List (List (List α))) :=
  (text.foldlM (Scan.step d) (Scan.fresh [])).bind Scan.finish

/-! ## What was written is read back -/

section ReadBack

variable {α : Type} [DecidableEq α] {d : Dialect α}

/-- The field `f` has been read to its end, whatever follows. -/
structure HasRead (f : List α) (fields : List (List α)) (records : List (List (List α))) (s : Scan α) : Prop where
  mode : s.mode = .start ∨ s.mode = .bare ∨ s.mode = .closed
  field : s.field = f
  fields : s.fields = fields
  records : s.records = records

theorem step_bare {s : Scan α} {c : α} (hm : s.mode = .start ∨ s.mode = .bare) (hc : ¬ d.Special c) :
    s.step d c = some { s with mode := .bare, field := s.field ++ [c] } := by
  simp only [Dialect.Special, not_or] at hc
  obtain ⟨hsep, hquote, hcr, hlf⟩ := hc
  rcases hm with hm | hm
  · simp [Scan.step, hm, hsep, hquote, hcr, hlf]
  · simp [Scan.step, hm, hsep, hquote, hcr, hlf]

theorem scan_bare {f : List α} (hf : d.Plain f) {s : Scan α} (hm : s.mode = .start ∨ s.mode = .bare) :
    ∃ s', f.foldlM (Scan.step d) s = some s' ∧ HasRead (s.field ++ f) s.fields s.records s' := by
  induction f generalizing s with
  | nil =>
      refine ⟨s, rfl, ?_, (List.append_nil _).symm, rfl, rfl⟩
      rcases hm with hm | hm
      · exact Or.inl hm
      · exact Or.inr (Or.inl hm)
  | cons c f ih =>
      have hstep := step_bare hm (hf c List.mem_cons_self)
      obtain ⟨s', hrun, hread⟩ := ih (fun c' hc' => hf c' (List.mem_cons_of_mem _ hc'))
        (s := { s with mode := .bare, field := s.field ++ [c] }) (Or.inr rfl)
      refine ⟨s', ?_, ?_⟩
      · rw [List.foldlM_cons, hstep]
        exact hrun
      · rw [List.append_cons]
        exact hread

/-- Inside quotes every character is kept, and two quotes are one. -/
theorem scan_quoted (f : List α) {s : Scan α} (hm : s.mode = .quoted) :
    (d.double f).foldlM (Scan.step d) s = some { s with field := s.field ++ f } := by
  induction f generalizing s with
  | nil => simp [Dialect.double]
  | cons c f ih =>
      have hcons : d.double (c :: f) = (if c = d.quote then [d.quote, c] else [c]) ++ d.double f := rfl
      rw [hcons, List.foldlM_append]
      by_cases hc : c = d.quote
      · subst hc
        have htwo : [d.quote, d.quote].foldlM (Scan.step d) s = some { s with field := s.field ++ [d.quote] } := by
          simp [Scan.step, hm, d.quote_ne_sep, d.quote_ne_lf, d.quote_ne_cr]
        rw [if_pos rfl, htwo]
        simp only [Option.bind_eq_bind, Option.bind_some]
        rw [ih (s := { s with field := s.field ++ [d.quote] }) hm]
        simp
      · have hone : [c].foldlM (Scan.step d) s = some { s with field := s.field ++ [c] } := by
          simp [Scan.step, hm, hc]
        rw [if_neg hc, hone]
        simp only [Option.bind_eq_bind, Option.bind_some]
        rw [ih (s := { s with field := s.field ++ [c] }) hm]
        simp

/-- A field is read back from its text, bare or quoted. -/
theorem scan_field {t f : List α} (h : Encodes d t f) (fields : List (List α)) (records : List (List (List α))) :
    ∃ s, t.foldlM (Scan.step d) ⟨.start, [], fields, records⟩ = some s ∧ HasRead f fields records s := by
  cases h with
  | bare h =>
      obtain ⟨s, hrun, hread⟩ := scan_bare h (s := ⟨.start, [], fields, records⟩) (Or.inl rfl)
      exact ⟨s, hrun, hread⟩
  | quoted =>
      refine ⟨⟨.closed, f, fields, records⟩, ?_, Or.inr (Or.inr rfl), rfl, rfl, rfl⟩
      have hopen : Scan.step d ⟨.start, [], fields, records⟩ d.quote = some ⟨.quoted, [], fields, records⟩ := by
        simp [Scan.step, d.quote_ne_sep, d.quote_ne_lf, d.quote_ne_cr]
      rw [List.cons_append, List.foldlM_cons, hopen]
      simp only [Option.bind_eq_bind, Option.bind_some]
      rw [List.foldlM_append, scan_quoted f rfl]
      simp [Scan.step]

theorem HasRead.sep {f : List α} {fields : List (List α)} {records : List (List (List α))} {s : Scan α}
    (h : HasRead f fields records s) : s.step d d.sep = some ⟨.start, [], fields ++ [f], records⟩ := by
  obtain ⟨hm, rfl, rfl, rfl⟩ := h
  rcases hm with hm | hm | hm
  · simp [Scan.step, hm, Scan.endField]
  · simp [Scan.step, hm, Scan.endField]
  · simp [Scan.step, hm, Scan.endField]

theorem HasRead.lf {f : List α} {fields : List (List α)} {records : List (List (List α))} {s : Scan α}
    (h : HasRead f fields records s) : s.step d d.lf = some (Scan.fresh (records ++ [fields ++ [f]])) := by
  obtain ⟨hm, rfl, rfl, rfl⟩ := h
  rcases hm with hm | hm | hm
  · simp [Scan.step, hm, Scan.endRecord, d.lf_ne_sep]
  · simp [Scan.step, hm, Scan.endRecord, d.lf_ne_sep]
  · simp [Scan.step, hm, Scan.endRecord, d.lf_ne_sep]

/-- The rest of a record, each field after a separator. -/
theorem scan_fields {ts fs : List (List α)} (h : List.Forall₂ (Encodes d) ts fs) {f : List α} {fields : List (List α)}
    {records : List (List (List α))} {s : Scan α} (hs : HasRead f fields records s) :
    (ts.flatMap (fun t => d.sep :: t) ++ [d.lf]).foldlM (Scan.step d) s =
      some (Scan.fresh (records ++ [fields ++ f :: fs])) := by
  induction h generalizing f fields s with
  | nil =>
      rw [List.flatMap_nil, List.nil_append, List.foldlM_cons, hs.lf]
      rfl
  | @cons t f' ts fs ht _ ih =>
      obtain ⟨s', hrun, hread⟩ := scan_field ht (fields ++ [f]) records
      rw [List.flatMap_cons, List.append_assoc, List.cons_append, List.foldlM_cons, hs.sep]
      simp only [Option.bind_eq_bind, Option.bind_some]
      rw [List.foldlM_append, hrun]
      simp only [Option.bind_eq_bind, Option.bind_some]
      rw [ih hread]
      simp

/-- One line adds one record. -/
theorem scan_line {t f : List α} {ts fs : List (List α)} (ht : Encodes d t f) (hts : List.Forall₂ (Encodes d) ts fs)
    (records : List (List (List α))) :
    (d.line t ts).foldlM (Scan.step d) (Scan.fresh records) = some (Scan.fresh (records ++ [f :: fs])) := by
  obtain ⟨s, hrun, hread⟩ := scan_field ht [] records
  rw [Dialect.line, List.append_assoc, List.foldlM_append]
  change (t.foldlM (Scan.step d) ⟨.start, [], [], records⟩ >>= _) = _
  rw [hrun]
  simp only [Option.bind_eq_bind, Option.bind_some]
  rw [scan_fields hts hread]
  rfl

/-- A line that adds `record` wherever it stands. -/
def Adds (d : Dialect α) (text : List α) (record : List (List α)) : Prop :=
  ∀ records, text.foldlM (Scan.step d) (Scan.fresh records) = some (Scan.fresh (records ++ [record]))

/-- Lines one after the other are their records in order. -/
theorem parse_lines {ι : Type} (rows : List ι) (text : ι → List α) (record : ι → List (List α))
    (h : ∀ r ∈ rows, Adds d (text r) (record r)) : parse d (rows.flatMap text) = some (rows.map record) := by
  have hscan : ∀ records, (rows.flatMap text).foldlM (Scan.step d) (Scan.fresh records) =
      some (Scan.fresh (records ++ rows.map record)) := by
    induction rows with
    | nil => simp
    | cons r rows ih =>
        intro records
        rw [List.flatMap_cons, List.foldlM_append, h r List.mem_cons_self records]
        simp only [Option.bind_eq_bind, Option.bind_some]
        rw [ih (fun r' hr' => h r' (List.mem_cons_of_mem _ hr'))]
        simp
  rw [parse, hscan]
  simp [Scan.finish, Scan.fresh]

/-- One line is one record. -/
theorem Adds.parse {text : List α} {record : List (List α)} (h : Adds d text record) :
    Csv.parse d text = some [record] := by
  have hone := parse_lines [()] (fun _ => text) (fun _ => record) fun _ _ => h
  simpa using hone

end ReadBack

/-! ## Where the records of any text end -/

section Records

variable {α : Type} [DecidableEq α] (d : Dialect α)

/-- Where the parser stands after a character; one that has no place there is an ordinary one. -/
def Mode.next (m : Mode) (c : α) : Mode :=
  match m with
  | .quoted => if c = d.quote then .closed else .quoted
  | m =>
      if c = d.sep ∨ c = d.lf then .start
      else if c = d.cr then .cr
      else if c = d.quote ∧ (m = .start ∨ m = .closed) then .quoted
      else .bare

/-- Each record as it stands, without the line feed that ends it; the last has none. -/
def recordsFrom (m : Mode) : List α → List (List α)
  | [] => [[]]
  | c :: text =>
      if c = d.lf ∧ m ≠ .quoted then [] :: recordsFrom (m.next d c) text
      else (recordsFrom (m.next d c) text).modifyHead (c :: ·)

def records (text : List α) : List (List α) := recordsFrom d .start text

/-- A record begins after `text`. -/
def AtRecord (text : List α) : Prop := (records d text).getLast? = some []

variable {d}

theorem next_lf {m : Mode} (hm : m ≠ .quoted) : m.next d d.lf = .start := by
  cases m with
  | quoted => exact absurd rfl hm
  | _ => simp [Mode.next]

/-- What follows goes on with the last record, and ends no other. -/
theorem recordsFrom_append (m : Mode) (text : List α) : ∃ done last,
    recordsFrom d m text = done ++ [last] ∧ (last = [] → text = [] ∨ text.foldl (Mode.next d) m = .start) ∧
      ∀ more, recordsFrom d m (text ++ more) =
        done ++ (recordsFrom d (text.foldl (Mode.next d) m) more).modifyHead (last ++ ·) := by
  induction text generalizing m with
  | nil =>
      refine ⟨[], [], rfl, fun _ => Or.inl rfl, fun more => ?_⟩
      simp only [List.nil_append, List.foldl_nil]
      exact (congrFun List.modifyHead_id _).symm
  | cons c text ih =>
      obtain ⟨done, last, hrecords, hstart, happend⟩ := ih (m.next d c)
      by_cases hends : c = d.lf ∧ m ≠ .quoted
      · refine ⟨[] :: done, last, ?_, fun hlast => Or.inr ?_, fun more => ?_⟩
        · rw [recordsFrom, if_pos hends, hrecords, List.cons_append]
        · rcases hstart hlast with rfl | hmode
          · rw [List.foldl_cons, hends.1, next_lf hends.2, List.foldl_nil]
          · exact hmode
        · rw [List.cons_append, recordsFrom, if_pos hends, happend, List.foldl_cons, List.cons_append]
      · cases done with
        | nil =>
            refine ⟨[], c :: last, ?_, nofun, fun more => ?_⟩
            · rw [recordsFrom, if_neg hends, hrecords]
              rfl
            · rw [List.cons_append, recordsFrom, if_neg hends, happend, List.foldl_cons, List.nil_append,
                List.nil_append, List.modifyHead_modifyHead]
              rfl
        | cons first done =>
            refine ⟨(c :: first) :: done, last, ?_, fun hlast => Or.inr ?_, fun more => ?_⟩
            · rw [recordsFrom, if_neg hends, hrecords]
              rfl
            · rcases hstart hlast with rfl | hmode
              · simp [recordsFrom] at hrecords
              · exact hmode
            · rw [List.cons_append, recordsFrom, if_neg hends, happend]
              rfl

/-- Where a record begins the records of what follows are its own. -/
theorem AtRecord.append {text : List α} (h : AtRecord d text) (more : List α) :
    records d (text ++ more) = (records d text).dropLast ++ records d more := by
  obtain ⟨done, last, hrecords, hstart, happend⟩ := recordsFrom_append (d := d) .start text
  have hlast : last = [] := by simpa [AtRecord, records, hrecords] using h
  have hmode : text.foldl (Mode.next d) .start = .start := by
    rcases hstart hlast with rfl | hmode
    · rfl
    · exact hmode
  rw [records, happend, hmode, hlast, records, hrecords, List.dropLast_concat]
  exact congrArg (done ++ ·) (congrFun List.modifyHead_id _)

theorem records_ne_nil (text : List α) : records d text ≠ [] := by
  obtain ⟨done, last, hrecords, -⟩ := recordsFrom_append (d := d) .start text
  rw [records, hrecords]
  simp

/-- Text without a line feed outside quotes is one record. -/
theorem eq_of_recordsFrom_singleton {m : Mode} {text last : List α} (h : recordsFrom d m text = [last]) :
    last = text := by
  induction text generalizing m last with
  | nil => simpa [recordsFrom] using h.symm
  | cons c text ih =>
      rw [recordsFrom] at h
      split at h
      · obtain ⟨done, last', hrecords, -⟩ := recordsFrom_append (d := d) (m.next d c) text
        simp [hrecords] at h
      · cases hrest : recordsFrom d (m.next d c) text with
        | nil => simp [hrest] at h
        | cons first rest =>
            rw [hrest, List.modifyHead_cons, List.cons.injEq] at h
            obtain ⟨rfl, rfl⟩ := h
            rw [ih hrest]

/-! ## They are the parser's -/

theorem step_next {s s' : Scan α} {c : α} (h : s.step d c = some s') : s'.mode = s.mode.next d c ∧
    s'.records.length = s.records.length + if c = d.lf ∧ s.mode ≠ .quoted then 1 else 0 := by
  obtain ⟨mode, field, fields, done⟩ := s
  cases mode with
  | quoted =>
      simp only [Scan.step] at h
      split at h
      · rename_i hquote
        cases h
        simp [Mode.next, hquote]
      · rename_i hquote
        cases h
        simp [Mode.next, hquote]
  | cr =>
      simp only [Scan.step] at h
      split at h
      · rename_i hlf
        cases h
        simp [Mode.next, hlf, Scan.endRecord, Scan.fresh]
      · cases h
  | _ =>
      simp only [Scan.step] at h
      split_ifs at h with hsep hlf hcr hquote
      all_goals cases h
      all_goals simp_all [Mode.next, Scan.endRecord, Scan.endField, Scan.fresh, d.lf_ne_sep.symm]

/-- The parser reads as many records as end in the text. -/
theorem scan_records {text : List α} {s s' : Scan α} (h : text.foldlM (Scan.step d) s = some s') :
    s'.mode = text.foldl (Mode.next d) s.mode ∧
      (recordsFrom d s.mode text).length + s.records.length = s'.records.length + 1 := by
  induction text generalizing s with
  | nil =>
      cases h
      exact ⟨rfl, Nat.add_comm _ _⟩
  | cons c text ih =>
      rw [List.foldlM_cons] at h
      obtain ⟨s₁, hstep, hrun⟩ := Option.bind_eq_some_iff.mp h
      obtain ⟨hmode, hlength⟩ := step_next hstep
      obtain ⟨hend, hcount⟩ := ih hrun
      rw [hmode] at hend hcount
      refine ⟨hend, ?_⟩
      rw [recordsFrom]
      split
      · rename_i hends
        rw [if_pos hends] at hlength
        rw [List.length_cons]
        omega
      · rename_i hends
        rw [if_neg hends] at hlength
        rw [List.length_modifyHead]
        omega

/-- A line that adds a record is that record, and another begins after it. -/
theorem Adds.records {text : List α} {record : List (List α)} (h : Adds d (text ++ [d.lf]) record) :
    Csv.records d (text ++ [d.lf]) = [text, []] := by
  obtain ⟨hmode, hcount⟩ := scan_records (h [])
  obtain ⟨done, last, hrecords, -, happend⟩ := recordsFrom_append (d := d) .start text
  have hquoted : text.foldl (Mode.next d) .start ≠ .quoted := by
    intro hquoted
    rw [List.foldl_append, show (Scan.fresh ([] : List (List (List α)))).mode = Mode.start from rfl, hquoted] at hmode
    simp [Scan.fresh, Mode.next, d.quote_ne_lf.symm] at hmode
  have hlf : recordsFrom d (text.foldl (Mode.next d) .start) [d.lf] = [[], []] := by
    rw [recordsFrom, if_pos ⟨rfl, hquoted⟩]
    rfl
  have hall : Csv.records d (text ++ [d.lf]) = done ++ [last, []] := by
    rw [Csv.records, happend, hlf, List.modifyHead_cons, List.append_nil]
  have hnone : done = [] := by
    have hlength : (Csv.records d (text ++ [d.lf])).length = 2 := by simpa [Csv.records, Scan.fresh] using hcount
    simpa [hall] using hlength
  rw [hnone, List.nil_append] at hrecords
  rw [hall, hnone, eq_of_recordsFrom_singleton hrecords]
  rfl

/-- Lines after a place where a record begins are records of their own, and one begins after them. -/
theorem AtRecord.lines {ι : Type} {text : List α} (h : AtRecord d text) (rows : List ι) (line : ι → List α)
    (record : ι → List (List α)) (hline : ∀ r ∈ rows, Adds d (line r ++ [d.lf]) (record r)) :
    Csv.records d (text ++ rows.flatMap fun r => line r ++ [d.lf]) =
      (Csv.records d text).dropLast ++ rows.map line ++ [[]] := by
  induction rows generalizing text with
  | nil =>
      have hlast : (Csv.records d text).getLast (records_ne_nil text) = [] := by
        rw [AtRecord, List.getLast?_eq_some_getLast (records_ne_nil text), Option.some.injEq] at h
        exact h
      rw [List.flatMap_nil, List.append_nil, List.map_nil, List.append_nil, ← hlast,
        List.dropLast_append_getLast]
  | cons r rows ih =>
      have hone : Csv.records d (text ++ (line r ++ [d.lf])) = (Csv.records d text).dropLast ++ [line r, []] := by
        rw [h.append, (hline r List.mem_cons_self).records]
      have hat : AtRecord d (text ++ (line r ++ [d.lf])) := by simp [AtRecord, hone]
      rw [List.flatMap_cons, ← List.append_assoc, ih hat fun r' hr' => hline r' (List.mem_cons_of_mem r hr'), hone]
      simp [List.dropLast_append_of_ne_nil]

end Records

end SlickPerfmon.Library.Csv
