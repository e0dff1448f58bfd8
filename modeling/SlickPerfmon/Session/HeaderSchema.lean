import SlickPerfmon.Session.CsvAppend
import Mathlib.Data.List.Basic

/-!
# The header is the schema

What `csv_header` puts out tells the percentile list, the unit and the correction apart, so that a session appends to
a file exactly when it would have written the header that is there.
-/

namespace SlickPerfmon

open Library

section Header

variable {F : Type} (fmt : FloatText F)

/-! ## The fields of the header -/

/-- The columns every configuration has, up to the figures. -/
def plainColumns : List (List UInt8) :=
  [ascii "timestamp", ascii "point", ascii "stage", ascii "kind", ascii "count", ascii "dropped", ascii "invalid",
    ascii "stalled", ascii "abandoned", ascii "orphan", ascii "out_of_range"]

/-- A latency column, which says its unit. -/
def unitColumn (u : OutputUnit) (name : List UInt8) : List UInt8 := name ++ (ascii "_" ++ unitSuffix u)

theorem csvColumns_names (cfg : CsvConfig F) : (csvColumns cfg).map (Column.name fmt cfg) =
    plainColumns ++ [unitColumn cfg.outputUnit (ascii "min"), unitColumn cfg.outputUnit (ascii "mean"),
      unitColumn cfg.outputUnit (ascii "stddev")] ++
      cfg.percentiles.map (fun p => unitColumn cfg.outputUnit (percentileLabel fmt p)) ++
      unitColumn cfg.outputUnit (ascii "max") :: ascii "tsc_hz" ::
        if cfg.subtractOverhead then [unitColumn cfg.outputUnit (ascii "overhead")] else [] := by
  have hpercentiles : (List.finRange cfg.percentiles.length).map (fun i => Column.name fmt cfg (.percentile i)) =
      cfg.percentiles.map fun p => unitColumn cfg.outputUnit (percentileLabel fmt p) := by
    conv_rhs => rw [← map_finRange_get cfg.percentiles rfl, List.map_map]
    rfl
  have hover : (if cfg.subtractOverhead then [.overhead] else [] : List (Column cfg.percentiles.length)).map
      (Column.name fmt cfg) =
      if cfg.subtractOverhead then [unitColumn cfg.outputUnit (ascii "overhead")] else [] := by
    split
    · rfl
    · rfl
  rw [csvColumns, List.map_append, List.map_append, List.map_append, List.map_map, hover]
  simp only [Function.comp_def, hpercentiles, List.append_assoc]
  rfl

/-- Two headers are the same text only if they are the same fields. -/
theorem names_of_header {cfg cfg' : CsvConfig F} (h : csvHeader fmt cfg = csvHeader fmt cfg') :
    (csvColumns cfg).map (Column.name fmt cfg) = (csvColumns cfg').map (Column.name fmt cfg') := by
  have hread := (csvHeader_adds fmt cfg).parse
  have hread' := (csvHeader_adds fmt cfg').parse
  rw [h, hread'] at hread
  simpa using hread.symm

/-- A header has the columns whose absence marks a file of before. -/
theorem isPreKindHeader_csvHeader (cfg : CsvConfig F) : isPreKindHeader (csvHeader fmt cfg) = false := by
  have hkind : ascii ",stage,kind," = 44 :: ascii "stage" ++ 44 :: ascii "kind" ++ [44] := by decide
  have hinfix : ascii ",stage,kind," <:+: csvHeader fmt cfg := by
    rw [csvHeader_fields, List.map_tail, csvColumns_names, plainColumns, hkind]
    exact ⟨ascii "timestamp" ++ 44 :: ascii "point", _, by
      simp only [List.cons_append, List.nil_append, List.tail_cons, List.flatMap_cons, List.append_assoc]
      rfl⟩
  rw [isPreKindHeader]
  exact decide_eq_false (not_not_intro hinfix)

/-! ## What the fields tell -/

theorem unitSuffix_inj {u u' : OutputUnit} (h : unitSuffix u = unitSuffix u') : u = u' := by
  cases u <;> cases u' <;> first | rfl | (revert h; decide)

theorem unitColumn_inj {u : OutputUnit} {name name' : List UInt8} (h : unitColumn u name = unitColumn u name') :
    name = name' := List.append_cancel_right h

/-- The column of a percentile begins like no column after it. -/
theorem percentileLabel_head (p : F) : ∃ rest, percentileLabel fmt p = 112 :: rest := ⟨_, rfl⟩

theorem max_not_percentile (cfg : CsvConfig F) : unitColumn cfg.outputUnit (ascii "max") ∉
    cfg.percentiles.map fun p => unitColumn cfg.outputUnit (percentileLabel fmt p) := by
  intro hmem
  obtain ⟨p, -, hp⟩ := List.mem_map.mp hmem
  obtain ⟨rest, hrest⟩ := percentileLabel_head fmt p
  have hmax : ascii "max" = 109 :: ascii "ax" := by decide
  rw [unitColumn, unitColumn, hrest, hmax] at hp
  exact absurd (List.cons.inj hp).1 (by decide)

variable {fmt}

/-- The unit stands in the first figure column, the percentiles between the deviation and the maximum, and the
correction is the column after the clock. -/
theorem config_of_names (hinj : Function.Injective (percentileLabel fmt)) {cfg cfg' : CsvConfig F}
    (h : (csvColumns cfg).map (Column.name fmt cfg) = (csvColumns cfg').map (Column.name fmt cfg')) : cfg = cfg' := by
  obtain ⟨ps, u, o⟩ := cfg
  obtain ⟨ps', u', o'⟩ := cfg'
  rw [csvColumns_names, csvColumns_names] at h
  have hunit : u = u' := by
    have hmin := congrArg (fun names => names[11]?) h
    simp [plainColumns, unitColumn] at hmin
    exact unitSuffix_inj hmin
  subst hunit
  have hmax : unitColumn u (ascii "max") ∉
      ascii "tsc_hz" :: if o then [unitColumn u (ascii "overhead")] else [] := by
    cases o <;> cases u <;> decide
  rw [List.append_assoc, List.append_assoc _ _ (_ :: _)] at h
  obtain ⟨hps, -, hrest⟩ := (List.append_cons_inj_of_notMem (max_not_percentile fmt ⟨ps, u, o⟩) hmax).mp
    (List.append_cancel_left h)
  have hpercentiles : ps = ps' :=
    List.map_injective_iff.mpr (fun p p' hp => hinj (unitColumn_inj hp)) hps
  have hover : o = o' := by
    have hlen := congrArg List.length hrest
    cases o <;> cases o' <;> simp at hlen ⊢
  rw [hpercentiles, hover]

end Header

/-- The header tells the settings apart. It is never taken for one of before the `kind` column, so that a session is
accepted onto a header that is there exactly when it would have written it: under the settings it was written for. -/
theorem header_identifies_schema {F : Type} (fmt : FloatText F) (hinj : Function.Injective (percentileLabel fmt)) :
    (∀ cfg cfg' : CsvConfig F, csvHeader fmt cfg = csvHeader fmt cfg' → cfg.percentiles = cfg'.percentiles ∧
      cfg.outputUnit = cfg'.outputUnit ∧ cfg.subtractOverhead = cfg'.subtractOverhead) ∧
    (∀ cfg : CsvConfig F, isPreKindHeader (csvHeader fmt cfg) = false) ∧
    ∀ (path : List UInt8) (runMode : Mode) (cfg : CsvConfig F) (file : List UInt8), path ≠ [] →
      runMode ≠ .sharedProducer → existingCsvHeader file ≠ [] →
      (validateCsvSchema fmt path runMode cfg file = .ok () ↔ existingCsvHeader file = csvHeader fmt cfg) ∧
      ∀ cfg' : CsvConfig F, existingCsvHeader file = csvHeader fmt cfg' →
        (validateCsvSchema fmt path runMode cfg file = .ok () ↔ cfg.percentiles = cfg'.percentiles ∧
          cfg.outputUnit = cfg'.outputUnit ∧ cfg.subtractOverhead = cfg'.subtractOverhead) := by
  refine ⟨?_, isPreKindHeader_csvHeader fmt, ?_⟩
  · intro cfg cfg' h
    obtain rfl := config_of_names hinj (names_of_header fmt h)
    exact ⟨rfl, rfl, rfl⟩
  · intro path runMode cfg file hpath hmode hline
    have hok : validateCsvSchema fmt path runMode cfg file = .ok () ↔ existingCsvHeader file = csvHeader fmt cfg := by
      rw [validateCsvSchema_ok_iff fmt hpath hmode]
      exact or_iff_right hline
    refine ⟨hok, fun cfg' hwritten => ?_⟩
    rw [hok, hwritten]
    constructor
    · intro h
      obtain rfl := config_of_names hinj (names_of_header fmt h)
      exact ⟨rfl, rfl, rfl⟩
    · obtain ⟨ps, u, o⟩ := cfg
      rintro ⟨rfl, rfl, rfl⟩
      rfl

/-! ## Whole numbers are labelled by their digits -/

theorem toNat_digit {n : Nat} {c : Char} (hc : c ∈ Nat.toDigits 10 n) : (UInt8.ofNat c.toNat).toNat = c.toNat := by
  have hrange := toDigits_range hc
  rw [UInt8.toNat_ofNat', Nat.mod_eq_of_lt (by omega)]

theorem decimal_inj {n m : Nat} (h : decimal n = decimal m) : n = m := by
  have hback : ∀ k, (decimal k).map (fun b => Char.ofNat b.toNat) = Nat.toDigits 10 k := by
    intro k
    rw [decimal, List.map_map]
    refine (List.map_congr_left fun c hc => ?_).trans (List.map_id _)
    rw [Function.comp_apply, toNat_digit hc, Char.ofNat_toNat, id]
  have hdigits := congrArg (fun l => Nat.ofDigitChars 10 (l.map fun b => Char.ofNat b.toNat) 0) h
  simpa only [hback, Nat.ofDigitChars_ten_toDigits] using hdigits

theorem roundTripText_wholeNumbers (n left prec : Nat) : roundTripText wholeNumbers n left prec = decimal n := by
  induction left generalizing prec with
  | zero => rfl
  | succ left ih =>
      rw [roundTripText]
      split
      · split
        · rfl
        · exact ih (prec + 1)
      · exact ih (prec + 1)

theorem percentileLabel_wholeNumbers (n : Nat) : percentileLabel wholeNumbers n = ascii "p" ++ decimal n := by
  rw [percentileLabel, roundTripText_wholeNumbers]
  congr 1
  refine (List.map_congr_left fun b hb => ?_).trans (List.map_id _)
  obtain ⟨c, hc, rfl⟩ := List.mem_map.mp hb
  rw [if_neg, id]
  intro hpoint
  have hrange := toDigits_range hc
  have hnat := congrArg UInt8.toNat hpoint
  rw [toNat_digit hc] at hnat
  change c.toNat = 46 at hnat
  omega

theorem percentileLabel_inj_wholeNumbers : Function.Injective (percentileLabel wholeNumbers) := by
  intro n m h
  rw [percentileLabel_wholeNumbers, percentileLabel_wholeNumbers] at h
  exact decimal_inj (List.append_cancel_left h)

/-- A file of nanoseconds takes rows of nanoseconds and no others. -/
theorem header_identifies_nanoseconds :
    validateCsvSchema wholeNumbers [47] .localMode plainConfig headedFile = .ok () ∧
      validateCsvSchema wholeNumbers [47] .localMode { plainConfig with outputUnit := .microseconds } headedFile ≠
        .ok () := by
  obtain ⟨-, -, hsession⟩ := header_identifies_schema wholeNumbers percentileLabel_inj_wholeNumbers
  have hpath : ([47] : List UInt8) ≠ [] := List.cons_ne_nil _ _
  have hmode : Mode.localMode ≠ .sharedProducer := fun h => by cases h
  have hold := existingCsvHeader_headedFile
  have hline : existingCsvHeader headedFile ≠ [] := by
    rw [hold]
    exact csvHeader_ne_nil wholeNumbers plainConfig
  constructor
  · exact ((hsession [47] .localMode plainConfig headedFile hpath hmode hline).2 plainConfig hold).mpr ⟨rfl, rfl, rfl⟩
  · intro hok
    have hsame := ((hsession [47] .localMode _ headedFile hpath hmode hline).2 plainConfig hold).mp hok
    cases hsame.2.1

end SlickPerfmon
