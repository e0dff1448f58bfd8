import SlickPerfmon.Report.CsvRoundTrip
import SlickPerfmon.Session.Collector

/-!
# Appending to the file at `config::path`

`existing_csv_header`, `validate_csv_schema` and `open_csv` over the bytes of the file, an absent file being an empty
one, and what the file is after a session has written its rows.
-/

namespace SlickPerfmon

open Library

/-- A trailing carriage return is dropped. -/
def chompCr (line : List UInt8) : List UInt8 := if line.getLast? = some 13 then line.dropLast else line

/-- The first line, or nothing. -/
def existingCsvHeader (file : List UInt8) : List UInt8 := chompCr (file.takeWhile (· ≠ 10))

def isPreKindHeader (header : List UInt8) : Bool := ¬ ascii ",stage,kind," <:+: header

section Append

variable {F : Type} (fmt : FloatText F)

/-- Nothing, or the message of the `std::invalid_argument`. -/
def validateCsvSchema (path : List UInt8) (runMode : Mode) (cfg : CsvConfig F) (file : List UInt8) :
    Except (List UInt8) Unit :=
  if path = [] ∨ runMode = .sharedProducer then .ok ()
  else
    let onDisk := existingCsvHeader file
    if onDisk = [] ∨ onDisk = csvHeader fmt cfg then .ok ()
    else if isPreKindHeader onDisk then
      .error (ascii "slick-perfmon: config::path '" ++ path ++
        ascii ("' holds a CSV written before rows carried a `kind` column. Its rows " ++
          "cannot be told from value samples - a latency stage named 'value' " ++
          "would read as one - so nothing is appended to it. Use a different " ++
          "path, or move the file aside. On disk: '") ++ onDisk ++
        ascii "'; this session: '" ++ csvHeader fmt cfg ++ ascii "'.")
    else
      .error (ascii "slick-perfmon: config::path '" ++ path ++
        ascii ("' already holds a CSV whose header does not match this configuration's " ++
          "columns - appending would change the schema mid-file. Use a different " ++
          "path, remove the file, or restore the percentile list, output_unit and " ++
          "subtract_overhead it was written with. On disk: '") ++ onDisk ++
        ascii "'; this session: '" ++ csvHeader fmt cfg ++ ascii "'.")

/-- The file once `open_csv` has opened it for appending. -/
def openCsv (cfg : CsvConfig F) (file : List UInt8) : List UInt8 :=
  let needsHeader := existingCsvHeader file = []
  if needsHeader then file ++ csvHeader fmt cfg ++ ascii "\n" else file

/-- The file after a session that wrote `rows`. -/
def sessionFile (cfg : CsvConfig F) (file : List UInt8) (rows : List (CsvArgs cfg)) : List UInt8 :=
  openCsv fmt cfg file ++ rows.flatMap fun r => r.write fmt

/-! ## One well-formed series -/

/-- How often the header is a record of the text. -/
def headerCount (cfg : CsvConfig F) (text : List UInt8) : Nat :=
  ((Csv.records csvDialect text).map chompCr).count (csvHeader fmt cfg)

/-- The file goes on as it was, under the one header, and each row is a record of its own. -/
structure OneSeries (cfg : CsvConfig F) (file : List UInt8) (rows : List (CsvArgs cfg)) : Prop where
  kept : file <+: sessionFile fmt cfg file rows
  first : existingCsvHeader (sessionFile fmt cfg file rows) = csvHeader fmt cfg
  once : headerCount fmt cfg (sessionFile fmt cfg file rows) = 1
  own : ∀ before r after, rows = before ++ r :: after →
    Csv.AtRecord csvDialect (openCsv fmt cfg file ++ before.flatMap fun r => r.write fmt) ∧
      Csv.AtRecord csvDialect (openCsv fmt cfg file ++ (before ++ [r]).flatMap fun r => r.write fmt)

/-! ## Lines -/

theorem chompCr_of_ne {line : List UInt8} (h : 13 ∉ line) : chompCr line = line := by
  rw [chompCr, if_neg]
  intro hlast
  exact h (List.mem_of_getLast? hlast)

theorem chompCr_eq_nil {line : List UInt8} (h : chompCr line = []) : line = [] ∨ line = [13] := by
  rw [chompCr] at h
  split at h
  · rename_i hlast
    right
    obtain ⟨init, rfl⟩ := List.getLast?_eq_some_iff.mp hlast
    simpa using h
  · exact Or.inl h

theorem takeWhile_append_of_mem {file : List UInt8} (h : 10 ∈ file) (rest : List UInt8) :
    (file ++ rest).takeWhile (· ≠ 10) = file.takeWhile (· ≠ 10) := by
  induction file with
  | nil => simp at h
  | cons c file ih =>
      by_cases hc : c = 10
      · simp [hc]
      · have hmem : 10 ∈ file := (List.mem_cons.mp h).resolve_left (Ne.symm hc)
        simpa [hc] using ih hmem

theorem takeWhile_line {line : List UInt8} (h : 10 ∉ line) (rest : List UInt8) :
    (line ++ 10 :: rest).takeWhile (· ≠ 10) = line := by
  induction line with
  | nil => simp
  | cons c line ih =>
      rw [List.mem_cons, not_or] at h
      simpa [Ne.symm h.1] using ih h.2

theorem takeWhile_of_not_mem {line : List UInt8} (h : 10 ∉ line) : line.takeWhile (· ≠ 10) = line := by
  induction line with
  | nil => rfl
  | cons c line ih =>
      rw [List.mem_cons, not_or] at h
      simpa [Ne.symm h.1] using ih h.2

/-! ## What a session writes -/

section Bytes

variable (cfg : CsvConfig F)

theorem ascii_newline : ascii "\n" = [10] := by decide

/-- The header without its line feed. -/
theorem csvHeader_fields : csvHeader fmt cfg =
    ascii "timestamp" ++ ((csvColumns cfg).tail.map (Column.name fmt cfg)).flatMap fun t => 44 :: t := by
  have hline := csvHeader_line fmt cfg
  rw [Csv.Dialect.line, ascii_newline] at hline
  exact List.append_cancel_right hline

theorem csvHeader_ne_nil : csvHeader fmt cfg ≠ [] := by
  rw [csvHeader_fields, show ascii "timestamp" = 116 :: ascii "imestamp" by decide]
  simp

/-- The header is one line, without a carriage return. -/
theorem csvHeader_oneLine : ∀ c ∈ csvHeader fmt cfg, c ≠ 10 ∧ c ≠ 13 := by
  intro c hc
  have hplain : ∀ t, csvDialect.Plain t → c ∈ t → c ≠ 10 ∧ c ≠ 13 := by
    intro t ht hct
    have hspecial := ht c hct
    constructor
    · rintro rfl
      exact hspecial (by decide)
    · rintro rfl
      exact hspecial (by decide)
  rw [csvHeader_fields, List.mem_append, List.mem_flatMap] at hc
  rcases hc with hc | ⟨t, ht, hc⟩
  · exact hplain _ (plain_ascii (by decide)) hc
  · obtain ⟨col, -, rfl⟩ := List.mem_map.mp ht
    rcases List.mem_cons.mp hc with rfl | hc
    · decide
    · exact hplain _ (plain_name fmt col) hc

theorem chompCr_csvHeader : chompCr (csvHeader fmt cfg) = csvHeader fmt cfg :=
  chompCr_of_ne fun h => (csvHeader_oneLine fmt cfg 13 h).2 rfl

theorem lf_not_mem_csvHeader : 10 ∉ csvHeader fmt cfg := fun h => (csvHeader_oneLine fmt cfg 10 h).1 rfl

variable {cfg}

/-- A row without its line feed. -/
def CsvArgs.rowText (r : CsvArgs cfg) : List UInt8 :=
  formatWallClock r.when ++ ((csvColumns cfg).tail.map (Column.text fmt r)).flatMap fun t => 44 :: t

theorem CsvArgs.write_rowText (r : CsvArgs cfg) : r.write fmt = r.rowText fmt ++ [10] := r.write_line fmt

theorem CsvArgs.rowText_adds (r : CsvArgs cfg) : Csv.Adds csvDialect (r.rowText fmt ++ [10]) (r.record fmt) := by
  rw [← r.write_rowText]
  exact r.write_adds fmt

theorem chompCr_prefix (line : List UInt8) : chompCr line <+: line := by
  rw [chompCr]
  split
  · exact List.dropLast_prefix line
  · exact List.prefix_refl line

/-- A row begins with a digit or a sign, and so is not the header. -/
theorem CsvArgs.rowText_ne_header (r : CsvArgs cfg) : chompCr (r.rowText fmt) ≠ csvHeader fmt cfg := by
  intro hheader
  have hfirst : (r.rowText fmt).head? = some 116 := by
    obtain ⟨rest, hrest⟩ := chompCr_prefix (r.rowText fmt)
    rw [hheader, csvHeader_fields] at hrest
    rw [← hrest, show ascii "timestamp" = 116 :: ascii "imestamp" by decide]
    rfl
  have hclock : ∀ c ∈ formatWallClock r.when, c ≠ 116 := by
    have hseparators : (ascii "- :.").all (fun c => decide (c ≠ 116)) = true := by decide
    refine formatWallClock_of (fun n c hc => ?_) (by decide)
      (fun c hc => of_decide_eq_true (List.all_eq_true.mp hseparators c hc)) r.when
    obtain ⟨digit, hdigit, rfl⟩ := List.mem_map.mp hc
    have hall : ∀ k < 58, 48 ≤ k → UInt8.ofNat k ≠ 116 := by decide
    exact hall digit.toNat (toDigits_range hdigit).2 (toDigits_range hdigit).1
  rw [rowText] at hfirst
  cases hwhen : formatWallClock r.when with
  | nil =>
      rw [hwhen] at hfirst
      exact absurd (Option.some.inj hfirst) (by decide)
  | cons c rest =>
      rw [hwhen] at hfirst
      exact hclock c (hwhen ▸ List.mem_cons_self) (Option.some.inj hfirst)

/-- Rows that begin at a record add themselves to the records, and no header. -/
theorem records_rows {text : List UInt8} (h : Csv.AtRecord csvDialect text) (rows : List (CsvArgs cfg)) :
    Csv.records csvDialect (text ++ rows.flatMap fun r => r.write fmt) =
      (Csv.records csvDialect text).dropLast ++ rows.map (fun r => r.rowText fmt) ++ [[]] := by
  have hwrite : (fun r : CsvArgs cfg => r.write fmt) = fun r => r.rowText fmt ++ [csvDialect.lf] :=
    funext fun r => r.write_rowText fmt
  rw [hwrite]
  exact h.lines rows _ _ fun r _ => r.rowText_adds fmt

theorem atRecord_rows {text : List UInt8} (h : Csv.AtRecord csvDialect text) (rows : List (CsvArgs cfg)) :
    Csv.AtRecord csvDialect (text ++ rows.flatMap fun r => r.write fmt) := by
  rw [Csv.AtRecord, records_rows fmt h]
  exact List.getLast?_concat

theorem headerCount_rows {text : List UInt8} (h : Csv.AtRecord csvDialect text) (rows : List (CsvArgs cfg)) :
    headerCount fmt cfg (text ++ rows.flatMap fun r => r.write fmt) = headerCount fmt cfg text := by
  have hrows : ((rows.map fun r => r.rowText fmt).map chompCr).count (csvHeader fmt cfg) = 0 := by
    rw [List.count_eq_zero, List.map_map]
    intro hmem
    obtain ⟨r, -, hr⟩ := List.mem_map.mp hmem
    rw [Function.comp_apply] at hr
    exact absurd hr (r.rowText_ne_header fmt)
  have hsplit : Csv.records csvDialect text = (Csv.records csvDialect text).dropLast ++ [[]] :=
    (List.dropLast_append_getLast? [] h).symm
  rw [headerCount, records_rows fmt h, headerCount]
  conv_rhs => rw [hsplit]
  rw [List.map_append, List.map_append, List.count_append, List.count_append, hrows, Nat.add_zero, List.map_append,
    List.count_append]

/-- A record begins in a text only at its start or after a line feed. -/
theorem lf_mem_of_atRecord {text : List UInt8} (h : Csv.AtRecord csvDialect text) (hne : text ≠ []) : 10 ∈ text := by
  by_contra hlf
  have hone : ∀ m, Csv.recordsFrom csvDialect m text = [text] := by
    intro m
    clear h hne
    induction text generalizing m with
    | nil => rfl
    | cons c text ih =>
        rw [List.mem_cons, not_or] at hlf
        rw [Csv.recordsFrom, if_neg fun hends => hlf.1 hends.1.symm, ih hlf.2]
        rfl
  rw [Csv.AtRecord, Csv.records, hone, List.getLast?_singleton, Option.some.injEq] at h
  exact hne h

/-- Cut off inside a label, the file ends with a line feed and not where a record begins. -/
example : (Csv.records csvDialect (ascii "timestamp,point\n2025-10-09 12:00:00.000,\"tick\n")).getLast? ≠ some [] := by
  decide +kernel

end Bytes

/-! ## When the file stays one series -/

section Series

variable {cfg : CsvConfig F} {file : List UInt8} {rows : List (CsvArgs cfg)}

/-- A file that is opened as new becomes a series only when it is empty. -/
theorem oneSeries_new (hnew : existingCsvHeader file = []) : OneSeries fmt cfg file rows ↔ file = [] := by
  have hopen : openCsv fmt cfg file = file ++ csvHeader fmt cfg ++ [10] := by
    rw [openCsv, ascii_newline]
    exact if_pos hnew
  have hline := lf_not_mem_csvHeader fmt cfg
  constructor
  · intro hseries
    by_contra hne
    have hfirst := hseries.first
    rw [sessionFile, hopen] at hfirst
    by_cases hlf : 10 ∈ file
    · -- the first line is still the blank one
      rw [existingCsvHeader, List.append_assoc, List.append_assoc, takeWhile_append_of_mem hlf,
        ← existingCsvHeader, hnew] at hfirst
      exact csvHeader_ne_nil fmt cfg hfirst.symm
    · have hwhole : file.takeWhile (· ≠ 10) = file := takeWhile_of_not_mem hlf
      have hcr : file = [13] := by
        rw [existingCsvHeader, hwhole] at hnew
        exact (chompCr_eq_nil hnew).resolve_left hne
      have hglued : 10 ∉ 13 :: csvHeader fmt cfg := by
        rw [List.mem_cons, not_or]
        exact ⟨by decide, hline⟩
      have hlast : (13 :: csvHeader fmt cfg).getLast? ≠ some 13 := by
        rw [List.getLast?_cons_of_ne_nil (csvHeader_ne_nil fmt cfg)]
        exact fun h => (csvHeader_oneLine fmt cfg 13 (List.mem_of_getLast? h)).2 rfl
      rw [hcr, existingCsvHeader, List.append_assoc, List.singleton_append, List.singleton_append,
        takeWhile_line hglued, chompCr, if_neg hlast] at hfirst
      exact absurd (congrArg List.length hfirst) (by simp)
  · rintro rfl
    rw [List.nil_append] at hopen
    have hadds : Csv.Adds csvDialect (csvHeader fmt cfg ++ [10]) ((csvColumns cfg).map (Column.name fmt cfg)) := by
      rw [← ascii_newline]
      exact csvHeader_adds fmt cfg
    have hrecords : Csv.records csvDialect (csvHeader fmt cfg ++ [10]) = [csvHeader fmt cfg, []] := hadds.records
    have hat : Csv.AtRecord csvDialect (csvHeader fmt cfg ++ [10]) := by
      rw [Csv.AtRecord, hrecords]
      rfl
    constructor
    · exact List.nil_prefix
    · rw [sessionFile, hopen, existingCsvHeader, List.append_assoc, List.singleton_append, takeWhile_line hline,
        chompCr_csvHeader]
    · rw [sessionFile, hopen, headerCount_rows fmt hat, headerCount, hrecords, List.map_cons, List.map_singleton,
        chompCr_csvHeader, show chompCr [] = [] from rfl, List.count_cons_self, List.count_singleton]
      simpa using (csvHeader_ne_nil fmt cfg).symm
    · intro before r after _
      rw [hopen]
      exact ⟨atRecord_rows fmt hat before, atRecord_rows fmt hat (before ++ [r])⟩

/-- A file that begins with the session's header. -/
theorem oneSeries_matching (hold : existingCsvHeader file = csvHeader fmt cfg) :
    OneSeries fmt cfg file rows ↔ headerCount fmt cfg file = 1 ∧ (rows = [] ∨ Csv.AtRecord csvDialect file) := by
  have hne : existingCsvHeader file ≠ [] := by
    rw [hold]
    exact csvHeader_ne_nil fmt cfg
  have hfile : file ≠ [] := by
    rintro rfl
    exact hne rfl
  have hopen : openCsv fmt cfg file = file := if_neg hne
  constructor
  · intro hseries
    have honce := hseries.once
    rw [sessionFile, hopen] at honce
    cases rows with
    | nil =>
        rw [List.flatMap_nil, List.append_nil] at honce
        exact ⟨honce, Or.inl rfl⟩
    | cons r rows =>
        have hstart := (hseries.own [] r rows rfl).1
        rw [hopen, List.flatMap_nil, List.append_nil] at hstart
        rw [headerCount_rows fmt hstart] at honce
        exact ⟨honce, Or.inr hstart⟩
  · rintro ⟨honce, hend⟩
    constructor
    · rw [sessionFile, hopen]
      exact List.prefix_append ..
    · rw [sessionFile, hopen]
      rcases hend with rfl | hend
      · rw [List.flatMap_nil, List.append_nil]
        exact hold
      · rw [existingCsvHeader, takeWhile_append_of_mem (lf_mem_of_atRecord hend hfile), ← existingCsvHeader]
        exact hold
    · rw [sessionFile, hopen]
      rcases hend with rfl | hend
      · rw [List.flatMap_nil, List.append_nil]
        exact honce
      · rw [headerCount_rows fmt hend]
        exact honce
    · intro before r after hrows
      have hat : Csv.AtRecord csvDialect file := hend.resolve_left (by simp [hrows])
      rw [hopen]
      exact ⟨atRecord_rows fmt hat before, atRecord_rows fmt hat (before ++ [r])⟩

theorem validateCsvSchema_ok_iff {path : List UInt8} {runMode : Mode} (hpath : path ≠ [])
    (hmode : runMode ≠ .sharedProducer) : validateCsvSchema fmt path runMode cfg file = .ok () ↔
      existingCsvHeader file = [] ∨ existingCsvHeader file = csvHeader fmt cfg := by
  rw [validateCsvSchema, if_neg (not_or.mpr ⟨hpath, hmode⟩)]
  constructor
  · intro hok
    by_contra hrefused
    simp only [if_neg hrefused] at hok
    split at hok
    · cases hok
    · cases hok
  · intro haccepted
    exact if_pos haccepted

/-- Appending keeps the file one series exactly when it was empty, or began with this header, the only record that is
one, and either ended where a record begins or gets no row. -/
theorem append_keeps_series {path : List UInt8} {runMode : Mode} (hpath : path ≠ [])
    (hmode : runMode ≠ .sharedProducer) (hok : validateCsvSchema fmt path runMode cfg file = .ok ()) :
    OneSeries fmt cfg file rows ↔
      file = [] ∨ existingCsvHeader file = csvHeader fmt cfg ∧ headerCount fmt cfg file = 1 ∧
        (rows = [] ∨ Csv.AtRecord csvDialect file) := by
  have hne := csvHeader_ne_nil fmt cfg
  rcases (validateCsvSchema_ok_iff fmt hpath hmode).mp hok with hnew | hold
  · rw [oneSeries_new fmt hnew, hnew]
    simp [hne.symm]
  · rw [oneSeries_matching fmt hold]
    constructor
    · exact fun h => Or.inr ⟨hold, h⟩
    · rintro (rfl | h)
      · exact absurd hold.symm hne
      · exact h.2

end Series

end Append

/-! ## A collector killed in the middle of a line -/

def plainConfig : CsvConfig Nat := ⟨[50], .nanoseconds, false⟩

def plainRow : CsvArgs plainConfig :=
  ⟨⟨125, 0, 9, 10, 11, 12, 7⟩, ascii "tick", ascii "total", false, ⟨1, 0, 0, 0, 0, 0, 0,
    toFigures plainConfig 1 9 4 2 id⟩, 1000, 0, rfl⟩

/-- A label that holds the header on a line of its own. -/
def headerLabel : List UInt8 := ascii "tick\n" ++ csvHeader wholeNumbers plainConfig ++ ascii "\n"

def labelledRow : CsvArgs plainConfig := { plainRow with pointName := headerLabel }

/-- The header, and a row whose label has three lines. -/
def headedFile : List UInt8 :=
  csvHeader wholeNumbers plainConfig ++ ascii "\n" ++ labelledRow.write wholeNumbers

theorem existingCsvHeader_headedFile : existingCsvHeader headedFile = csvHeader wholeNumbers plainConfig := by
  decide +kernel

theorem append_to_headed : OneSeries wholeNumbers plainConfig headedFile [plainRow, labelledRow] := by
  have hpath : ascii "perfmon.csv" ≠ [] := by decide
  have hold := existingCsvHeader_headedFile
  have hok := (validateCsvSchema_ok_iff wholeNumbers hpath (by decide : Mode.localMode ≠ .sharedProducer)).mpr
    (Or.inr hold)
  refine (append_keeps_series wholeNumbers hpath (by decide) hok).mpr (Or.inr ⟨hold, ?_, Or.inr ?_⟩)
  · decide +kernel
  · unfold Csv.AtRecord
    decide +kernel

def tornFile : List UInt8 := csvHeader wholeNumbers plainConfig ++ ascii "\n2025-10-09 12:0"

theorem append_to_torn : ¬ ∀ (path : List UInt8) (runMode : Mode) (file : List UInt8)
    (rows : List (CsvArgs plainConfig)), path ≠ [] → runMode ≠ .sharedProducer →
      validateCsvSchema wholeNumbers path runMode plainConfig file = .ok () →
      OneSeries wholeNumbers plainConfig file rows := by
  intro hall
  have hpath : ascii "perfmon.csv" ≠ [] := by decide
  have hold : existingCsvHeader tornFile = csvHeader wholeNumbers plainConfig := by decide +kernel
  have hok := (validateCsvSchema_ok_iff wholeNumbers hpath (by decide : Mode.localMode ≠ .sharedProducer)).mpr
    (Or.inr hold)
  have hseries := hall _ _ tornFile [plainRow] hpath (by decide) hok
  have hopen : ¬ Csv.AtRecord csvDialect tornFile := by
    unfold Csv.AtRecord
    decide +kernel
  rcases ((oneSeries_matching wholeNumbers hold).mp hseries).2 with hrows | hat
  · exact absurd hrows (by simp)
  · exact hopen hat

end SlickPerfmon
