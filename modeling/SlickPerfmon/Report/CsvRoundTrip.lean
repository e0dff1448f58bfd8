import SlickPerfmon.Report.Csv

/-!
# Rows survive any label

What `write_csv_row` puts out is a line of RFC 4180 with one field for each column of the header, whatever bytes the
labels are made of.
-/

namespace SlickPerfmon

open Library

def csvDialect : Csv.Dialect UInt8 := ⟨44, 34, 13, 10, by decide⟩

/-! ## Fields without a comma, a quote or a line break -/

section Plain

theorem plain_of_all {s : List UInt8} (h : s.all (fun c => decide (¬ csvDialect.Special c)) = true) :
    csvDialect.Plain s := fun c hc => of_decide_eq_true (List.all_eq_true.mp h c hc)

theorem plain_ascii {s : String} (h : (ascii s).all (fun c => decide (¬ csvDialect.Special c)) = true) :
    csvDialect.Plain (ascii s) := plain_of_all h

theorem plain_append {s t : List UInt8} (hs : csvDialect.Plain s) (ht : csvDialect.Plain t) :
    csvDialect.Plain (s ++ t) := by
  intro c hc
  rcases List.mem_append.mp hc with hc | hc
  · exact hs c hc
  · exact ht c hc

theorem plain_floatChars : csvDialect.Plain floatChars := plain_of_all (by decide)

theorem toDigits_range {n : Nat} {c : Char} (hc : c ∈ Nat.toDigits 10 n) : 48 ≤ c.toNat ∧ c.toNat < 58 := by
  have hdigit := Nat.isDigit_of_mem_toDigits (by omega) (by omega) hc
  simp only [Char.isDigit, Bool.and_eq_true, decide_eq_true_eq] at hdigit
  exact ⟨hdigit.1, Nat.lt_succ_of_le hdigit.2⟩

theorem decimal_chars (n : Nat) : ∀ b ∈ decimal n, b ∈ floatChars := by
  intro b hb
  obtain ⟨c, hc, rfl⟩ := List.mem_map.mp hb
  have hrange := toDigits_range hc
  have hall : ∀ k < 58, 48 ≤ k → UInt8.ofNat k ∈ floatChars := by decide
  exact hall c.toNat hrange.2 hrange.1

theorem plain_decimal (n : Nat) : csvDialect.Plain (decimal n) := fun b hb =>
  plain_floatChars b (decimal_chars n b hb)

/-- What holds of the characters of numbers and of the separators holds of those of a wall clock. -/
theorem formatWallClock_of {P : UInt8 → Prop} (hdecimal : ∀ n, ∀ c ∈ decimal n, P c) (hzero : P 48)
    (hseparators : ∀ c ∈ ascii "- :.", P c) (tm : Tm) : ∀ c ∈ formatWallClock tm, P c := by
  have happend : ∀ {s t : List UInt8}, (∀ c ∈ s, P c) → (∀ c ∈ t, P c) → ∀ c ∈ s ++ t, P c :=
    fun hs ht c hc => (List.mem_append.mp hc).elim (hs c) (ht c)
  have hsep : ∀ t, t ⊆ ascii "- :." → ∀ c ∈ t, P c := fun t ht c hc => hseparators c (ht hc)
  have hdash : ∀ c ∈ ascii "-", P c := hsep _ (by decide)
  have hcolon : ∀ c ∈ ascii ":", P c := hsep _ (by decide)
  have hpadded : ∀ width n, ∀ c ∈ zeroPadded width n, P c := by
    intro width n
    have hzeros : ∀ k, ∀ c ∈ List.replicate k (48 : UInt8), P c := fun k c hc => List.eq_of_mem_replicate hc ▸ hzero
    unfold zeroPadded
    simp only
    split
    · exact happend (happend hdash (hzeros _)) (hdecimal _)
    · exact happend (hzeros _) (hdecimal _)
  intro c hc
  have hall := happend (happend (happend (happend (happend (happend (happend (happend (happend (happend (happend (happend
    (hpadded 4 (tm.tmYear + 1900)) hdash) (hpadded 2 (tm.tmMon + 1))) hdash) (hpadded 2 tm.tmMday))
    (hsep (ascii " ") (by decide))) (hpadded 2 tm.tmHour)) hcolon) (hpadded 2 tm.tmMin)) hcolon) (hpadded 2 tm.tmSec))
    (hsep (ascii ".") (by decide))) (hpadded 3 tm.ms)
  exact hall c (List.mem_of_mem_take hc)

theorem plain_formatWallClock (tm : Tm) : csvDialect.Plain (formatWallClock tm) :=
  formatWallClock_of plain_decimal (by decide) (plain_ascii (by decide)) tm

variable {F : Type} (fmt : FloatText F)

theorem plain_fixed (prec : Nat) (x : F) : csvDialect.Plain (fmt.fixed prec x) := fun c hc =>
  plain_floatChars c (fmt.fixed_chars prec x c hc)

theorem roundTripText_chars (p : F) (left prec : Nat) : ∀ c ∈ roundTripText fmt p left prec, c ∈ floatChars := by
  induction left generalizing prec with
  | zero => exact fmt.general_chars prec p
  | succ left ih =>
      rw [roundTripText]
      split
      · split
        · exact fmt.general_chars prec p
        · exact ih (prec + 1)
      · exact ih (prec + 1)

theorem plain_percentileLabel (p : F) : csvDialect.Plain (percentileLabel fmt p) := by
  refine plain_append (plain_ascii (by decide)) fun c hc => ?_
  obtain ⟨c', hc', rfl⟩ := List.mem_map.mp hc
  split
  · decide
  · exact plain_floatChars c' (roundTripText_chars fmt p 11 6 c' hc')

theorem plain_unitSuffix (u : OutputUnit) : csvDialect.Plain (ascii "_" ++ unitSuffix u) := by
  cases u with
  | cycles => exact plain_of_all (by decide)
  | nanoseconds => exact plain_of_all (by decide)
  | microseconds => exact plain_of_all (by decide)

end Plain

/-! ## Each text stands for its field -/

theorem writeCsvField_encodes (s : List UInt8) : Csv.Encodes csvDialect (writeCsvField s) s := by
  unfold writeCsvField
  split
  · rename_i hall
    refine .bare fun c hc hspecial => ?_
    have := List.all_eq_true.mp hall c hc
    rcases hspecial with rfl | rfl | rfl | rfl
    · revert this; decide
    · revert this; decide
    · revert this; decide
    · revert this; decide
  · exact .quoted s

section Columns

variable {F : Type} (fmt : FloatText F) {cfg : CsvConfig F}

theorem plain_name (c : Column cfg.percentiles.length) : csvDialect.Plain (Column.name fmt cfg c) := by
  have hsfx := plain_unitSuffix cfg.outputUnit
  cases c with
  | min => exact plain_append (plain_ascii (by decide)) hsfx
  | mean => exact plain_append (plain_ascii (by decide)) hsfx
  | stddev => exact plain_append (plain_ascii (by decide)) hsfx
  | max => exact plain_append (plain_ascii (by decide)) hsfx
  | overhead => exact plain_append (plain_ascii (by decide)) hsfx
  | percentile i => exact plain_append (plain_percentileLabel fmt _) hsfx
  | _ => exact plain_ascii (by decide)

theorem name_encodes (c : Column cfg.percentiles.length) :
    Csv.Encodes csvDialect (Column.name fmt cfg c) (Column.name fmt cfg c) := .bare (plain_name fmt c)

/-- How a row writes a column: only the labels go through `write_csv_field`. -/
def Column.text (r : CsvArgs cfg) : Column cfg.percentiles.length → List UInt8
  | .point => writeCsvField r.pointName
  | .stage => writeCsvField r.stageName
  | c => Column.value fmt r c

theorem text_encodes (r : CsvArgs cfg) (c : Column cfg.percentiles.length) :
    Csv.Encodes csvDialect (Column.text fmt r c) (Column.value fmt r c) := by
  cases c with
  | point => exact writeCsvField_encodes _
  | stage => exact writeCsvField_encodes _
  | timestamp => exact .bare (plain_formatWallClock _)
  | kind =>
      have hkind : ∀ b, csvDialect.Plain (csvKind b) := fun b => by
        cases b with
        | true => exact plain_ascii (by decide)
        | false => exact plain_ascii (by decide)
      exact .bare (hkind r.isValue)
  | min => exact .bare (plain_fixed fmt _ _)
  | mean => exact .bare (plain_fixed fmt _ _)
  | stddev => exact .bare (plain_fixed fmt _ _)
  | percentile i => exact .bare (plain_fixed fmt _ _)
  | max => exact .bare (plain_fixed fmt _ _)
  | overhead => exact .bare (plain_fixed fmt _ _)
  | _ => exact .bare (plain_decimal _)

/-! ## Lines -/

theorem ascii_comma : ascii "," = [44] := by decide

/-- A loop that puts out a comma and a text for each element. -/
theorem foldl_comma {β : Type} (ps : List β) (f : β → List UInt8) (start : List UInt8) :
    ps.foldl (fun text p => text ++ ascii "," ++ f p) start = start ++ ps.flatMap fun p => 44 :: f p := by
  induction ps generalizing start with
  | nil => simp
  | cons p ps ih =>
      rw [List.foldl_cons, ih, ascii_comma, List.flatMap_cons]
      simp

theorem append_if (b : Bool) (s t : List UInt8) :
    (if b = true then s ++ t else s) = s ++ if b = true then t else [] := by
  cases b with
  | true => rfl
  | false => exact (List.append_nil s).symm

/-- The elements of a list, one for each index of a list as long. -/
theorem map_finRange_get {β : Type} (l : List β) {n : Nat} (h : l.length = n) :
    (List.finRange n).map (fun i => l.get (i.cast h.symm)) = l := by
  subst h
  simp

/-- A line of texts, one for each column, spelled out. -/
theorem line_columns (cfg : CsvConfig F) (text : List UInt8) (f : Column cfg.percentiles.length → List UInt8) :
    csvDialect.line text ((csvColumns cfg).tail.map f) =
      text ++ 44 :: f .point ++ 44 :: f .stage ++ 44 :: f .kind ++ 44 :: f .count ++ 44 :: f .dropped ++
        44 :: f .invalid ++ 44 :: f .stalled ++ 44 :: f .abandoned ++ 44 :: f .orphan ++ 44 :: f .outOfRange ++
        44 :: f .min ++ 44 :: f .mean ++ 44 :: f .stddev ++
        (List.finRange cfg.percentiles.length).flatMap (fun i => 44 :: f (.percentile i)) ++
        44 :: f .max ++ 44 :: f .tscHz ++ (if cfg.subtractOverhead then 44 :: f .overhead else []) ++ ascii "\n" := by
  have hover : ∀ b : Bool, (if b = true then [.overhead] else [] : List (Column cfg.percentiles.length)).flatMap
      (fun c => 44 :: f c) = if b = true then 44 :: f .overhead else [] := fun b => by
    cases b with
    | true => exact List.flatMap_singleton ..
    | false => rfl
  have hsep : csvDialect.sep = 44 := rfl
  have hlf : [csvDialect.lf] = ascii "\n" := by decide
  simp only [Csv.Dialect.line, csvColumns, List.cons_append, List.nil_append, List.tail_cons, List.map_append,
    List.map_cons, List.map_map, List.flatMap_append, List.flatMap_cons, List.flatMap_map, List.append_assoc,
    Function.comp_def, hover, hsep, hlf]

theorem csvHeader_line (cfg : CsvConfig F) :
    csvHeader fmt cfg ++ ascii "\n" =
      csvDialect.line (ascii "timestamp") ((csvColumns cfg).tail.map (Column.name fmt cfg)) := by
  have hfirst : ascii "timestamp,point,stage,kind,count,dropped,invalid,stalled,abandoned,orphan,out_of_range" =
      ascii "timestamp" ++ 44 :: ascii "point" ++ 44 :: ascii "stage" ++ 44 :: ascii "kind" ++ 44 :: ascii "count" ++
        44 :: ascii "dropped" ++ 44 :: ascii "invalid" ++ 44 :: ascii "stalled" ++ 44 :: ascii "abandoned" ++
        44 :: ascii "orphan" ++ 44 :: ascii "out_of_range" := by decide
  have hmin : ascii ",min" = 44 :: ascii "min" := by decide
  have hmean : ascii ",mean" = 44 :: ascii "mean" := by decide
  have hstddev : ascii ",stddev" = 44 :: ascii "stddev" := by decide
  have hmax : ascii ",max" = 44 :: ascii "max" := by decide
  have htsc : ascii ",tsc_hz" = 44 :: ascii "tsc_hz" := by decide
  have hover : ascii ",overhead" = 44 :: ascii "overhead" := by decide
  have hpercentiles : cfg.percentiles.flatMap (fun p => 44 :: (percentileLabel fmt p ++
      (ascii "_" ++ unitSuffix cfg.outputUnit))) =
      (List.finRange cfg.percentiles.length).flatMap fun i => 44 :: Column.name fmt cfg (.percentile i) := by
    conv_lhs => rw [← map_finRange_get cfg.percentiles rfl, List.flatMap_map]
    rfl
  have hloop : ∀ start, cfg.percentiles.foldl (fun h p =>
      h ++ ascii "," ++ percentileLabel fmt p ++ (ascii "_" ++ unitSuffix cfg.outputUnit)) start =
      start ++ cfg.percentiles.flatMap fun p => 44 :: (percentileLabel fmt p ++
        (ascii "_" ++ unitSuffix cfg.outputUnit)) := fun start => by
    rw [← foldl_comma]
    simp only [List.append_assoc]
  rw [line_columns, csvHeader]
  simp only [hloop, hpercentiles, append_if]
  simp only [hfirst, hmin, hmean, hstddev, hmax, htsc, hover, List.append_assoc, List.cons_append]
  rfl

/-- What a row puts out is one line, with a text for each column. -/
theorem CsvArgs.write_line (r : CsvArgs cfg) :
    r.write fmt = csvDialect.line (formatWallClock r.when) ((csvColumns cfg).tail.map (Column.text fmt r)) := by
  have hpercentiles : r.stats.figures.percentiles.flatMap (fun p => 44 :: fmt.fixed 1 p) =
      (List.finRange cfg.percentiles.length).flatMap fun i => 44 :: Column.text fmt r (.percentile i) := by
    rw [← map_finRange_get r.stats.figures.percentiles r.configured, List.flatMap_map]
    rfl
  rw [line_columns, CsvArgs.write, writeCsvRow, foldl_comma, hpercentiles]
  have hover : ∀ s : List UInt8, (if cfg.subtractOverhead = true then s ++ ascii "," ++ fmt.fixed 1 r.ov else s) =
      s ++ if cfg.subtractOverhead = true then 44 :: fmt.fixed 1 r.ov else [] := fun s => by
    rw [List.append_assoc, append_if]
    rfl
  simp only [hover]
  simp only [ascii_comma, List.append_assoc, List.cons_append, List.nil_append]
  rfl

/-! ## The file -/

theorem forall₂_encodes {ι : Type} (cs : List ι) (text value : ι → List UInt8)
    (h : ∀ c, Csv.Encodes csvDialect (text c) (value c)) :
    List.Forall₂ (Csv.Encodes csvDialect) (cs.map text) (cs.map value) := by
  induction cs with
  | nil => exact .nil
  | cons c cs ih => exact .cons (h c) ih

theorem csvHeader_adds (cfg : CsvConfig F) :
    Csv.Adds csvDialect (csvHeader fmt cfg ++ ascii "\n") ((csvColumns cfg).map (Column.name fmt cfg)) := by
  intro records
  rw [csvHeader_line]
  exact Csv.scan_line (name_encodes fmt .timestamp) (forall₂_encodes _ _ _ (name_encodes fmt)) records

theorem CsvArgs.write_adds (r : CsvArgs cfg) : Csv.Adds csvDialect (r.write fmt) (r.record fmt) := by
  intro records
  rw [r.write_line]
  exact Csv.scan_line (text_encodes fmt r .timestamp) (forall₂_encodes _ _ _ (text_encodes fmt r)) records

/-- The figure in the column of a percentile is that percentile, in a row that `to_stats` filled. -/
theorem value_percentile (r : CsvArgs cfg) {min max mean stddev : F} {percentile : F → F}
    (h : r.stats.figures = toFigures cfg min max mean stddev percentile) (i : Fin cfg.percentiles.length) :
    Column.value fmt r (.percentile i) = fmt.fixed 1 (percentile (cfg.percentiles.get i)) := by
  have hget : ∀ (l : List F) (hl : l.length = cfg.percentiles.length), l = cfg.percentiles.map percentile →
      l.get (i.cast hl.symm) = percentile (cfg.percentiles.get i) := by
    rintro l hl rfl
    simp
  rw [Column.value, hget _ r.configured (by rw [h]; rfl)]

end Columns

/-- Under any configuration the header and each row are one record, a field for each of the same columns: the header
names the column, the row has its value there, and the labels are read back byte for byte. Rows one after the other,
under the header or not, are those records in order. -/
theorem csv_rows_survive_any_label {F : Type} (fmt : FloatText F) (cfg : CsvConfig F) :
    Csv.parse csvDialect (csvHeader fmt cfg ++ ascii "\n") = some [(csvColumns cfg).map (Column.name fmt cfg)] ∧
    (∀ r : CsvArgs cfg,
      Csv.parse csvDialect (r.write fmt) = some [(csvColumns cfg).map (Column.value fmt r)] ∧
      ((csvColumns cfg).map (Column.value fmt r)).length = ((csvColumns cfg).map (Column.name fmt cfg)).length ∧
      ((csvColumns cfg).map (Column.value fmt r))[1]? = some r.pointName ∧
      ((csvColumns cfg).map (Column.value fmt r))[2]? = some r.stageName) ∧
    ∀ rows : List (CsvArgs cfg),
      Csv.parse csvDialect (rows.flatMap fun r => r.write fmt) =
        some (rows.map fun r => (csvColumns cfg).map (Column.value fmt r)) ∧
      Csv.parse csvDialect (csvHeader fmt cfg ++ ascii "\n" ++ rows.flatMap fun r => r.write fmt) =
        some ((csvColumns cfg).map (Column.name fmt cfg) ::
          rows.map fun r => (csvColumns cfg).map (Column.value fmt r)) := by
  have hrows : ∀ r : CsvArgs cfg, Csv.Adds csvDialect (r.write fmt) (r.record fmt) := CsvArgs.write_adds fmt
  have hheader := csvHeader_adds fmt cfg
  refine ⟨hheader.parse, fun r => ⟨(hrows r).parse, ?_, rfl, rfl⟩, fun rows => ⟨?_, ?_⟩⟩
  · rw [List.length_map, List.length_map]
  · exact Csv.parse_lines rows _ _ fun r _ => hrows r
  · have := Csv.parse_lines (none :: rows.map some)
      (fun o => o.elim (csvHeader fmt cfg ++ ascii "\n") fun r => r.write fmt)
      (fun o => o.elim ((csvColumns cfg).map (Column.name fmt cfg)) fun r => r.record fmt)
      (by
        intro o _
        cases o with
        | none => exact hheader
        | some r => exact hrows r)
    simpa [List.flatMap_map, Function.comp_def, CsvArgs.record] using this

/-- Doubles that are whole numbers, printed as such. -/
def wholeNumbers : FloatText Nat where
  general _ x := decimal x
  fixed prec x := decimal x ++ ascii "." ++ List.replicate prec 48
  read text := some (text.foldl (fun n c => 10 * n + (c.toNat - 48)) 0)
  eq a b := a == b
  toUInt64 x := UInt64.ofNat x
  general_chars _ x := decimal_chars x
  fixed_chars prec x c hc := by
    rcases List.mem_append.mp hc with hc | hc
    · rcases List.mem_append.mp hc with hc | hc
      · exact decimal_chars x c hc
      · have hpoint : (46 : UInt8) ∈ floatChars := by decide
        rw [List.mem_singleton.mp (show c ∈ [46] from hc)]
        exact hpoint
    · rw [List.eq_of_mem_replicate hc]
      decide

example :
    let cfg : CsvConfig Nat := ⟨[50, 99], .nanoseconds, false⟩
    let row : CsvArgs cfg := ⟨⟨125, 0, 9, 10, 11, 12, 7⟩, ascii "a,\"b\r\n", ascii "", false,
      ⟨3, 0, 0, 0, 0, 0, 0, toFigures cfg 1 9 4 2 id⟩, 1000, 0, rfl⟩
    (Csv.parse csvDialect (row.write wholeNumbers)).map (·.map (·.map List.length)) =
      some [[23, 6, 0, 7, 1, 1, 1, 1, 1, 1, 1, 3, 3, 3, 4, 4, 3, 4]] := by
  decide +kernel

end SlickPerfmon
