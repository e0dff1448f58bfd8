import SlickPerfmon.Library.Csv
import SlickPerfmon.Report.Flush
import Mathlib.Data.List.FinRange

/-!
# The bytes of the CSV

`csv_header`, `write_csv_field` and `write_csv_row` as the bytes they put out. Text is a list of bytes, so a label may be
anything. A double is printed by the standard library in the classic locale, which `FloatText` describes.
-/

namespace SlickPerfmon

open Library

/-- The bytes of a literal. -/
def ascii (s : String) : List UInt8 := s.toList.map fun c => UInt8.ofNat c.toNat

/-- What a double may be printed as: a number, with an exponent or not, `inf` or `nan`. -/
def floatChars : List UInt8 := ascii "+-.()0123456789abcdefghijklmnopqrstuvwxyz"

/-- The doubles, as the streams of the classic locale see them. -/
structure FloatText (F : Type) where
  /-- `os << std::setprecision(prec) << x`. -/
  general : Nat → F → List UInt8
  /-- `os << std::fixed << std::setprecision(prec) << x`. -/
  fixed : Nat → F → List UInt8
  /-- `is >> x`, nothing when the stream fails. -/
  read : List UInt8 → Option F
  eq : F → F → Bool
  /-- `static_cast<uint64_t>(x)`. -/
  toUInt64 : F → UInt64
  general_chars : ∀ prec x, ∀ c ∈ general prec x, c ∈ floatChars
  fixed_chars : ∀ prec x, ∀ c ∈ fixed prec x, c ∈ floatChars

/-- `os << n` of an integer. -/
def decimal (n : Nat) : List UInt8 := (Nat.toDigits 10 n).map fun c => UInt8.ofNat c.toNat

/-! ## The wall clock -/

/-- The fields of `std::tm` that are printed, and the milliseconds. -/
structure Tm where
  tmYear : Int
  tmMon : Int
  tmMday : Int
  tmHour : Int
  tmMin : Int
  tmSec : Int
  ms : Int

/-- `%0<width>d`. -/
def zeroPadded (width : Nat) (n : Int) : List UInt8 :=
  let digits := decimal n.natAbs
  if n < 0 then ascii "-" ++ List.replicate (width - 1 - digits.length) 48 ++ digits
  else List.replicate (width - digits.length) 48 ++ digits

/-- The buffer takes 31 bytes. -/
def formatWallClock (tm : Tm) : List UInt8 :=
  (zeroPadded 4 (tm.tmYear + 1900) ++ ascii "-" ++ zeroPadded 2 (tm.tmMon + 1) ++ ascii "-" ++ zeroPadded 2 tm.tmMday ++
    ascii " " ++ zeroPadded 2 tm.tmHour ++ ascii ":" ++ zeroPadded 2 tm.tmMin ++ ascii ":" ++ zeroPadded 2 tm.tmSec ++
    ascii "." ++ zeroPadded 3 tm.ms).take 31

/-! ## The header -/

/-- `unit`. -/
inductive OutputUnit
  | cycles
  | nanoseconds
  | microseconds
deriving DecidableEq, Repr

def unitSuffix : OutputUnit → List UInt8
  | .cycles => ascii "cycles"
  | .microseconds => ascii "us"
  | .nanoseconds => ascii "ns"

/-- The settings the CSV depends on. -/
structure CsvConfig (F : Type) where
  percentiles : List F
  outputUnit : OutputUnit
  subtractOverhead : Bool

section Header

variable {F : Type} (fmt : FloatText F)

/-- The text of the lowest precision, from `prec` on, that reads back as the number; after `left` more, the last. -/
def roundTripText (p : F) : (left prec : Nat) → List UInt8
  | 0, prec => fmt.general prec p
  | left + 1, prec =>
      let s := fmt.general prec p
      match fmt.read s with
      | some back => if fmt.eq back p then s else roundTripText p left (prec + 1)
      | none => roundTripText p left (prec + 1)

/-- Precisions 6 to `max_digits10`, which is 17. -/
def percentileLabel (p : F) : List UInt8 :=
  ascii "p" ++ (roundTripText fmt p 11 6).map fun c => if c = 46 then 95 else c

def csvHeader (cfg : CsvConfig F) : List UInt8 :=
  let sfx := ascii "_" ++ unitSuffix cfg.outputUnit
  let h := ascii "timestamp,point,stage,kind,count,dropped,invalid,stalled,abandoned,orphan,out_of_range"
  let h := h ++ (ascii ",min" ++ sfx)
  let h := h ++ (ascii ",mean" ++ sfx)
  let h := h ++ (ascii ",stddev" ++ sfx)
  let h := cfg.percentiles.foldl (fun h p => h ++ ascii "," ++ percentileLabel fmt p ++ sfx) h
  let h := h ++ (ascii ",max" ++ sfx)
  let h := h ++ ascii ",tsc_hz"
  if cfg.subtractOverhead then h ++ (ascii ",overhead" ++ sfx) else h

end Header

/-! ## The rows -/

def csvKind (isValue : Bool) : List UInt8 := if isValue then ascii "value" else ascii "latency"

def writeCsvField (s : List UInt8) : List UInt8 :=
  if s.all fun c => !(ascii ",\"\r\n").contains c then s
  else ascii "\"" ++ s.flatMap (fun c => if c = 34 then ascii "\"" ++ [c] else [c]) ++ ascii "\""

/-- The figures of `stats`. -/
structure Figures (F : Type) where
  min : F
  max : F
  mean : F
  stddev : F
  percentiles : List F

section Rows

variable {F : Type} (fmt : FloatText F)

/-- `to_stats`: one figure for each configured percentile. -/
def toFigures (cfg : CsvConfig F) (min max mean stddev : F) (percentile : F → F) : Figures F :=
  ⟨min, max, mean, stddev, cfg.percentiles.map percentile⟩

/-- The stream is in fixed notation with one decimal. -/
def writeCsvRow (cfg : CsvConfig F) (when pointName stageName : List UInt8) (isValue : Bool) (s : Stats (Figures F))
    (hz ov : F) : List UInt8 :=
  let csv := when ++ ascii ","
  let csv := csv ++ writeCsvField pointName
  let csv := csv ++ ascii ","
  let csv := csv ++ writeCsvField stageName
  let csv := csv ++ ascii "," ++ csvKind isValue ++ ascii "," ++ decimal s.count ++ ascii "," ++ decimal s.dropped ++
    ascii "," ++ decimal s.invalid ++ ascii "," ++ decimal s.stalled ++ ascii "," ++ decimal s.abandoned ++ ascii "," ++
    decimal s.orphan ++ ascii "," ++ decimal s.outOfRange ++ ascii "," ++ fmt.fixed 1 s.figures.min ++ ascii "," ++
    fmt.fixed 1 s.figures.mean ++ ascii "," ++ fmt.fixed 1 s.figures.stddev
  let csv := s.figures.percentiles.foldl (fun csv p => csv ++ ascii "," ++ fmt.fixed 1 p) csv
  let csv := csv ++ ascii "," ++ fmt.fixed 1 s.figures.max ++ ascii "," ++ decimal (fmt.toUInt64 hz).toNat
  let csv := if cfg.subtractOverhead then csv ++ ascii "," ++ fmt.fixed 1 ov else csv
  csv ++ ascii "\n"

/-- The arguments of one row. -/
structure CsvArgs (cfg : CsvConfig F) where
  when : Tm
  pointName : List UInt8
  stageName : List UInt8
  isValue : Bool
  stats : Stats (Figures F)
  hz : F
  ov : F
  /-- `to_stats` has put one figure for each configured percentile. -/
  configured : stats.figures.percentiles.length = cfg.percentiles.length

def CsvArgs.write {cfg : CsvConfig F} (r : CsvArgs cfg) : List UInt8 :=
  writeCsvRow fmt cfg (formatWallClock r.when) r.pointName r.stageName r.isValue r.stats r.hz r.ov

end Rows

/-! ## The columns -/

/-- What a column holds, with `n` percentiles configured. -/
inductive Column (n : Nat)
  | timestamp
  | point
  | stage
  | kind
  | count
  | dropped
  | invalid
  | stalled
  | abandoned
  | orphan
  | outOfRange
  | min
  | mean
  | stddev
  | percentile (i : Fin n)
  | max
  | tscHz
  | overhead
deriving DecidableEq, Repr

section Columns

variable {F : Type} (fmt : FloatText F) {cfg : CsvConfig F}

def csvColumns (cfg : CsvConfig F) : List (Column cfg.percentiles.length) :=
  [.timestamp, .point, .stage, .kind, .count, .dropped, .invalid, .stalled, .abandoned, .orphan, .outOfRange, .min,
    .mean, .stddev] ++ (List.finRange cfg.percentiles.length).map .percentile ++ [.max, .tscHz] ++
    if cfg.subtractOverhead then [.overhead] else []

/-- The latency columns say their unit. -/
def Column.name (cfg : CsvConfig F) : Column cfg.percentiles.length → List UInt8
  | .timestamp => ascii "timestamp"
  | .point => ascii "point"
  | .stage => ascii "stage"
  | .kind => ascii "kind"
  | .count => ascii "count"
  | .dropped => ascii "dropped"
  | .invalid => ascii "invalid"
  | .stalled => ascii "stalled"
  | .abandoned => ascii "abandoned"
  | .orphan => ascii "orphan"
  | .outOfRange => ascii "out_of_range"
  | .min => ascii "min" ++ (ascii "_" ++ unitSuffix cfg.outputUnit)
  | .mean => ascii "mean" ++ (ascii "_" ++ unitSuffix cfg.outputUnit)
  | .stddev => ascii "stddev" ++ (ascii "_" ++ unitSuffix cfg.outputUnit)
  | .percentile i => percentileLabel fmt (cfg.percentiles.get i) ++ (ascii "_" ++ unitSuffix cfg.outputUnit)
  | .max => ascii "max" ++ (ascii "_" ++ unitSuffix cfg.outputUnit)
  | .tscHz => ascii "tsc_hz"
  | .overhead => ascii "overhead" ++ (ascii "_" ++ unitSuffix cfg.outputUnit)

/-- What the column of a row says. -/
def Column.value (r : CsvArgs cfg) : Column cfg.percentiles.length → List UInt8
  | .timestamp => formatWallClock r.when
  | .point => r.pointName
  | .stage => r.stageName
  | .kind => csvKind r.isValue
  | .count => decimal r.stats.count
  | .dropped => decimal r.stats.dropped
  | .invalid => decimal r.stats.invalid
  | .stalled => decimal r.stats.stalled
  | .abandoned => decimal r.stats.abandoned
  | .orphan => decimal r.stats.orphan
  | .outOfRange => decimal r.stats.outOfRange
  | .min => fmt.fixed 1 r.stats.figures.min
  | .mean => fmt.fixed 1 r.stats.figures.mean
  | .stddev => fmt.fixed 1 r.stats.figures.stddev
  | .percentile i => fmt.fixed 1 (r.stats.figures.percentiles.get (i.cast r.configured.symm))
  | .max => fmt.fixed 1 r.stats.figures.max
  | .tscHz => decimal (fmt.toUInt64 r.hz).toNat
  | .overhead => fmt.fixed 1 r.ov

/-- The record a row stands for. -/
def CsvArgs.record (r : CsvArgs cfg) : List (List UInt8) := (csvColumns cfg).map (Column.value fmt r)

end Columns

end SlickPerfmon
