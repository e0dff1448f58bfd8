import SlickPerfmon.Session.BlockBytes
import SlickPerfmon.Session.FailedStart

/-!
# Where the fields of a block lie

For a geometry that `validate_config` accepts no address wraps, every field lies inside the segment at a multiple of its
size, no two fields share a byte, and no head and no claim word shares its cache line with anything else. An address
decodes to the field it lies in, which is why no two fields meet.
-/

namespace SlickPerfmon

open Library

/-! ## Addresses as numbers -/

theorem toNat_and_not_63 (x : UInt64) : (x &&& ~~~63).toNat = x.toNat / 64 * 64 := by
  have hmask : (~~~63 : UInt64).toNat = (2 ^ 58 - 1) * 2 ^ 6 := rfl
  rw [UInt64.toNat_and, hmask]
  refine Nat.eq_of_testBit_eq fun i => ?_
  have hdiv : x.toNat / 64 * 64 = x.toNat / 2 ^ 6 * 2 ^ 6 := rfl
  rw [hdiv, Nat.testBit_and, Nat.testBit_mul_two_pow, Nat.testBit_mul_two_pow, Nat.testBit_two_pow_sub_one,
    Nat.testBit_div_two_pow]
  by_cases hlow : 6 ≤ i
  · have hback : i - 6 + 6 = i := Nat.sub_add_cancel hlow
    rw [hback]
    by_cases hhigh : i < 64
    · have hin : i - 6 < 58 := by omega
      simp [hlow, hin]
    · have hzero : x.toNat.testBit i = false :=
        Nat.testBit_lt_two_pow (x.toNat_lt.trans_le (Nat.pow_le_pow_right (by decide) (Nat.not_lt.mp hhigh)))
      simp [hzero]
  · simp [hlow]

namespace BlockGeometry

variable {g : BlockGeometry}

/-- What `validate_config` demands of the thread rings. -/
structure Accepted (g : BlockGeometry) : Prop where
  rings : g.rings ≤ kMaxThreadRings
  bytes : g.rings.toUInt64 * g.ringCapacity.toUInt64 * 16 ≤ kMaxThreadRingBytes

theorem Accepted.rings_le (h : g.Accepted) : g.rings.toNat ≤ 4096 := UInt32.le_iff_toNat_le.mp h.rings

theorem Accepted.bytes_le (h : g.Accepted) : g.rings.toNat * g.ringCapacity.toNat * 16 ≤ 2147483648 := by
  have hrings := h.rings_le
  have hcap := g.ringCapacity.toNat_lt
  have hbytes := UInt64.le_iff_toNat_le.mp h.bytes
  have hprod : g.rings.toNat * g.ringCapacity.toNat ≤ 4096 * 2 ^ 32 := Nat.mul_le_mul hrings (Nat.le_of_lt hcap)
  simp only [UInt64.toNat_mul, UInt32.toNat_toUInt64] at hbytes
  rw [Nat.mod_eq_of_lt (a := g.rings.toNat * g.ringCapacity.toNat) (by omega)] at hbytes
  have h16 : (16 : UInt64).toNat = 16 := rfl
  have hmax : kMaxThreadRingBytes.toNat = 2147483648 := rfl
  rw [h16, hmax, Nat.mod_eq_of_lt (by omega)] at hbytes
  exact hbytes

/-- The start of the ring table. -/
def tablePlace (g : BlockGeometry) : Nat := (48 + g.maxNames.toNat * 72 + 63) / 64 * 64

theorem ringsOffset_toNat (g : BlockGeometry) : g.ringsOffset.toNat = g.tablePlace := by
  have hnames := g.maxNames.toNat_lt
  rw [ringsOffset, toNat_and_not_63, tablePlace]
  congr 2
  simp only [kControlBlockBytes, kNameEntryBytes, UInt64.toNat_add, UInt64.toNat_mul, UInt32.toNat_toUInt64]
  simp
  omega

theorem tablePlace_le (g : BlockGeometry) : g.tablePlace ≤ 2 ^ 39 := by
  have hnames := g.maxNames.toNat_lt
  rw [tablePlace]
  omega

theorem nameEntry_toNat {i : Nat} (hi : i < g.maxNames.toNat) : (nameEntry i).toNat = 48 + 72 * i := by
  have hnames := g.maxNames.toNat_lt
  simp only [nameEntry, kControlBlockBytes, kNameEntryBytes, UInt64.toNat_add, UInt64.toNat_mul, UInt64.toNat_ofNat']
  simp
  omega

theorem Accepted.slot_toNat (h : g.Accepted) {r : Nat} (hr : r < g.rings.toNat) :
    (g.slot r).toNat = g.tablePlace + 64 + 128 * r := by
  have hrings := h.rings_le
  have htable := g.tablePlace_le
  simp only [slot, kTableHeaderBytes, kRingSlotBytes, UInt64.toNat_add, UInt64.toNat_mul, UInt64.toNat_ofNat',
    ringsOffset_toNat]
  simp
  omega

/-- Samples of one ring after the other. -/
theorem flat_lt {r k : Nat} (hr : r < g.rings.toNat) (hk : k < g.ringCapacity.toNat) :
    r * g.ringCapacity.toNat + k < g.rings.toNat * g.ringCapacity.toNat := by
  have hnext : (r + 1) * g.ringCapacity.toNat ≤ g.rings.toNat * g.ringCapacity.toNat := Nat.mul_le_mul_right _ hr
  rw [Nat.succ_mul] at hnext
  omega

theorem Accepted.sample_toNat (h : g.Accepted) {r k : Nat} (hr : r < g.rings.toNat) (hk : k < g.ringCapacity.toNat) :
    (g.sample r k).toNat =
      g.tablePlace + 64 + 128 * g.rings.toNat + 16 * (r * g.ringCapacity.toNat + k) := by
  have hrings := h.rings_le
  have htable := g.tablePlace_le
  have hflat := flat_lt hr hk
  have hbytes := h.bytes_le
  simp only [sample, kTableHeaderBytes, kRingSlotBytes, kSampleBytes, UInt64.toNat_add, UInt64.toNat_mul,
    UInt64.toNat_ofNat', ringsOffset_toNat, UInt32.toNat_toUInt64]
  simp
  generalize r * g.ringCapacity.toNat = q at *
  omega

theorem Accepted.bytesFor_toNat (h : g.Accepted) :
    g.bytesFor.toNat = if g.rings.toNat = 0 then g.tablePlace
      else g.tablePlace + 64 + 128 * g.rings.toNat + 16 * (g.rings.toNat * g.ringCapacity.toNat) := by
  have hrings := h.rings_le
  have htable := g.tablePlace_le
  have hbytes := h.bytes_le
  unfold bytesFor
  by_cases hnone : g.rings = 0
  · rw [if_pos hnone, if_pos (by rw [hnone]; rfl), ringsOffset_toNat]
  · have hpos : g.rings.toNat ≠ 0 := fun hzero => hnone (UInt32.toNat_inj.mp hzero)
    rw [if_neg hnone, if_neg hpos]
    simp only [tableBytes, kTableHeaderBytes, kRingSlotBytes, kSampleBytes, UInt64.toNat_add, UInt64.toNat_mul,
      ringsOffset_toNat, UInt32.toNat_toUInt64]
    simp
    generalize g.rings.toNat * g.ringCapacity.toNat = q at *
    omega

end BlockGeometry

namespace BlockField

variable {g : BlockGeometry}

/-- The address of a field, as a number. -/
def place (g : BlockGeometry) : BlockField → Nat
  | .magic => 0
  | .layoutVersion => 4
  | .maxNames => 8
  | .nameCapacity => 12
  | .ringCount => 16
  | .ringCapacity => 20
  | .tscHzMilli => 24
  | .invariantTsc => 32
  | .initState => 36
  | .nameGeneration => 40
  | .key i => 48 + 72 * i
  | .nameByte i j => 48 + 72 * i + 8 + j
  | .tableCount => g.tablePlace
  | .tableCapacity => g.tablePlace + 4
  | .nextTag => g.tablePlace + 8
  | .head r => g.tablePlace + 64 + 128 * r
  | .owner r => g.tablePlace + 64 + 128 * r + 64
  | .timestamp r k => g.tablePlace + 64 + 128 * g.rings.toNat + 16 * (r * g.ringCapacity.toNat + k)
  | .point r k => g.tablePlace + 64 + 128 * g.rings.toNat + 16 * (r * g.ringCapacity.toNat + k) + 8
  | .event r k => g.tablePlace + 64 + 128 * g.rings.toNat + 16 * (r * g.ringCapacity.toNat + k) + 12

/-- No address wraps. -/
theorem offset_toNat (h : g.Accepted) {f : BlockField} (hf : f.Within g) : (f.offset g).toNat = f.place g := by
  have hnames := g.maxNames.toNat_lt
  have hrings := h.rings_le
  have htable := g.tablePlace_le
  have hbytes := h.bytes_le
  cases f with
  | key i => exact BlockGeometry.nameEntry_toNat hf
  | nameByte i j =>
      have hi : i < g.maxNames.toNat := hf.1
      have hj : j < 64 := hf.2
      rw [offset, UInt64.toNat_add, UInt64.toNat_add, BlockGeometry.nameEntry_toNat hf.1, UInt64.toNat_ofNat', place]
      simp
      omega
  | tableCount => exact g.ringsOffset_toNat
  | tableCapacity =>
      rw [offset, UInt64.toNat_add, g.ringsOffset_toNat, place]
      simp
      omega
  | nextTag =>
      rw [offset, UInt64.toNat_add, g.ringsOffset_toNat, place]
      simp
      omega
  | head r => exact h.slot_toNat hf
  | owner r =>
      have hr : r < g.rings.toNat := hf
      rw [offset, UInt64.toNat_add, h.slot_toNat hr, place]
      simp
      omega
  | timestamp r k => exact h.sample_toNat hf.1 hf.2
  | point r k =>
      have hflat := BlockGeometry.flat_lt hf.1 hf.2
      rw [offset, UInt64.toNat_add, h.sample_toNat hf.1 hf.2, place]
      simp
      omega
  | event r k =>
      have hflat := BlockGeometry.flat_lt hf.1 hf.2
      rw [offset, UInt64.toNat_add, h.sample_toNat hf.1 hf.2, place]
      simp
      omega
  | _ => rfl

/-- The field that an address lies in. -/
def lying (g : BlockGeometry) (x : Nat) : Option BlockField :=
  if x < 48 then
    some (if x < 4 then .magic else if x < 8 then .layoutVersion else if x < 12 then .maxNames
      else if x < 16 then .nameCapacity else if x < 20 then .ringCount else if x < 24 then .ringCapacity
      else if x < 32 then .tscHzMilli else if x < 36 then .invariantTsc else if x < 40 then .initState
      else .nameGeneration)
  else if x < 48 + 72 * g.maxNames.toNat then
    if (x - 48) % 72 < 8 then some (.key ((x - 48) / 72)) else some (.nameByte ((x - 48) / 72) ((x - 48) % 72 - 8))
  else if x < g.tablePlace then none
  else if x < g.tablePlace + 64 then
    if x < g.tablePlace + 4 then some .tableCount
    else if x < g.tablePlace + 8 then some .tableCapacity
    else if x < g.tablePlace + 12 then some .nextTag
    else none
  else if x < g.tablePlace + 64 + 128 * g.rings.toNat then
    let r := (x - (g.tablePlace + 64)) / 128
    let o := (x - (g.tablePlace + 64)) % 128
    if o < 8 then some (.head r) else if 64 ≤ o ∧ o < 72 then some (.owner r) else none
  else
    let q := (x - (g.tablePlace + 64 + 128 * g.rings.toNat)) / 16
    let o := (x - (g.tablePlace + 64 + 128 * g.rings.toNat)) % 16
    let r := q / g.ringCapacity.toNat
    let k := q % g.ringCapacity.toNat
    some (if o < 8 then .timestamp r k else if o < 12 then .point r k else .event r k)

theorem names_before_table (g : BlockGeometry) : 48 + 72 * g.maxNames.toNat ≤ g.tablePlace := by
  rw [BlockGeometry.tablePlace]
  omega

theorem lying_sample {f : Nat → Nat → BlockField} {r k x o n : Nat} (hk : k < g.ringCapacity.toNat)
    (hx : g.tablePlace + 64 + 128 * g.rings.toNat + 16 * (r * g.ringCapacity.toNat + k) + o ≤ x)
    (hlt : x < g.tablePlace + 64 + 128 * g.rings.toNat + 16 * (r * g.ringCapacity.toNat + k) + o + n)
    (hon : o + n ≤ 16) (hf : ∀ o' : Nat, o ≤ o' → o' < o + n → ∀ r k,
      (if o' < 8 then BlockField.timestamp r k else if o' < 12 then .point r k else .event r k) = f r k) :
    lying g x = some (f r k) := by
  have hnames := names_before_table g
  have hq : (x - (g.tablePlace + 64 + 128 * g.rings.toNat)) / 16 = r * g.ringCapacity.toNat + k := by omega
  have ho := hf ((x - (g.tablePlace + 64 + 128 * g.rings.toNat)) % 16) (by omega) (by omega)
  have hr : (r * g.ringCapacity.toNat + k) / g.ringCapacity.toNat = r := by
    rw [Nat.mul_comm, Nat.mul_add_div (by omega), Nat.div_eq_of_lt hk, Nat.add_zero]
  have hk' : (r * g.ringCapacity.toNat + k) % g.ringCapacity.toNat = k := by
    rw [Nat.mul_comm, Nat.mul_add_mod, Nat.mod_eq_of_lt hk]
  rw [lying, if_neg (by omega), if_neg (by omega), if_neg (by omega), if_neg (by omega), if_neg (by omega)]
  simp only [hq, hr, hk', ho]

/-- An address in a field decodes to it. -/
theorem lying_eq {f : BlockField} (hf : f.Within g) {x : Nat} (hx : f.place g ≤ x) (hlt : x < f.place g + f.size) :
    lying g x = some f := by
  have hnames := names_before_table g
  cases f with
  | key i =>
      have hi : i < g.maxNames.toNat := hf
      simp only [place, size] at hx hlt
      have hentry : (x - 48) / 72 = i := by omega
      rw [lying, if_neg (by omega), if_pos (by omega), if_pos (by omega), hentry]
  | nameByte i j =>
      have hi : i < g.maxNames.toNat := hf.1
      have hj : j < 64 := hf.2
      simp only [place, size] at hx hlt
      have hentry : (x - 48) / 72 = i := by omega
      have hbyte : (x - 48) % 72 - 8 = j := by omega
      rw [lying, if_neg (by omega), if_pos (by omega), if_neg (by omega), hentry, hbyte]
  | tableCount =>
      simp only [place, size] at hx hlt
      rw [lying, if_neg (by omega), if_neg (by omega), if_neg (by omega), if_pos (by omega), if_pos (by omega)]
  | tableCapacity =>
      simp only [place, size] at hx hlt
      rw [lying, if_neg (by omega), if_neg (by omega), if_neg (by omega), if_pos (by omega), if_neg (by omega),
        if_pos (by omega)]
  | nextTag =>
      simp only [place, size] at hx hlt
      rw [lying, if_neg (by omega), if_neg (by omega), if_neg (by omega), if_pos (by omega), if_neg (by omega),
        if_neg (by omega), if_pos (by omega)]
  | head r =>
      have hr : r < g.rings.toNat := hf
      simp only [place, size] at hx hlt
      have hslot : (x - (g.tablePlace + 64)) / 128 = r := by omega
      rw [lying, if_neg (by omega), if_neg (by omega), if_neg (by omega), if_neg (by omega), if_pos (by omega)]
      simp only [hslot]
      rw [if_pos (by omega)]
  | owner r =>
      have hr : r < g.rings.toNat := hf
      simp only [place, size] at hx hlt
      have hslot : (x - (g.tablePlace + 64)) / 128 = r := by omega
      rw [lying, if_neg (by omega), if_neg (by omega), if_neg (by omega), if_neg (by omega), if_pos (by omega)]
      simp only [hslot]
      rw [if_neg (by omega), if_pos (by omega)]
  | timestamp r k =>
      refine lying_sample (f := BlockField.timestamp) (o := 0) (n := 8) hf.2 hx hlt (by omega) ?_
      intro o _ hlt r k
      rw [if_pos (by omega)]
  | point r k =>
      refine lying_sample (f := BlockField.point) (o := 8) (n := 4) hf.2 hx hlt (by omega) ?_
      intro o hle hlt r k
      rw [if_neg (by omega), if_pos (by omega)]
  | event r k =>
      refine lying_sample (f := BlockField.event) (o := 12) (n := 4) hf.2 hx hlt (by omega) ?_
      intro o hle _ r k
      rw [if_neg (by omega), if_neg (by omega)]
  | _ =>
      simp only [place, size] at hx hlt
      rw [lying, if_pos (by omega)]
      congr 1
      grind

theorem size_pos (f : BlockField) : 0 < f.size := by
  cases f <;> exact Nat.succ_pos _

theorem place_inj {f f' : BlockField} (hf : f.Within g) (hf' : f'.Within g) (h : f.place g = f'.place g) : f = f' := by
  have hat := lying_eq hf (Nat.le_refl _) (Nat.lt_add_of_pos_right f.size_pos)
  have hat' := lying_eq hf' (Nat.le_refl _) (Nat.lt_add_of_pos_right f'.size_pos)
  rw [h, hat'] at hat
  exact (Option.some.inj hat).symm

/-- The end of a field, and where it stands to a multiple of its size. -/
theorem place_spec (h : g.Accepted) {f : BlockField} (hf : f.Within g) :
    f.place g % f.size = 0 ∧ f.place g + f.size ≤ g.bytesFor.toNat := by
  have hnames := names_before_table g
  have htable : g.tablePlace % 64 = 0 := by
    rw [BlockGeometry.tablePlace]
    omega
  have hend : g.tablePlace ≤ g.bytesFor.toNat ∧ (0 < g.rings.toNat →
      g.tablePlace + 64 + 128 * g.rings.toNat + 16 * (g.rings.toNat * g.ringCapacity.toNat) ≤ g.bytesFor.toNat) := by
    rw [h.bytesFor_toNat]
    split
    · omega
    · omega
  cases f with
  | key i =>
      have hi : i < g.maxNames.toNat := hf
      simp only [place, size]
      omega
  | nameByte i j =>
      have hi : i < g.maxNames.toNat := hf.1
      have hj : j < 64 := hf.2
      simp only [place, size]
      omega
  | tableCount | tableCapacity | nextTag =>
      have hr : 0 < g.rings.toNat := hf
      simp only [place, size]
      omega
  | head r | owner r =>
      have hr : r < g.rings.toNat := hf
      simp only [place, size]
      omega
  | timestamp r k | point r k | event r k =>
      have hr : r < g.rings.toNat := hf.1
      have hflat := BlockGeometry.flat_lt hf.1 hf.2
      simp only [place, size]
      omega
  | _ =>
      simp only [place, size, true_and]
      omega

/-- The head and the claim of a ring have a cache line each. -/
def OwnLine : BlockField → Prop
  | .head _ | .owner _ => True
  | _ => False

theorem ownLine_alone {f f' : BlockField} (hf : f.Within g) (hf' : f'.Within g) (hown : f.OwnLine) (hne : f' ≠ f)
    {x : Nat} (hx : f'.place g ≤ x) (hlt : x < f'.place g + f'.size) : x / 64 ≠ f.place g / 64 := by
  have hnames := names_before_table g
  have htable : g.tablePlace % 64 = 0 := by
    rw [BlockGeometry.tablePlace]
    omega
  have hline : ∀ f₁ : BlockField, f₁.OwnLine → f₁.Within g →
      f₁.place g % 64 = 0 ∧ g.tablePlace + 64 ≤ f₁.place g ∧
        f₁.place g + 64 ≤ g.tablePlace + 64 + 128 * g.rings.toNat := by
    intro f₁ hown hf₁
    cases f₁ with
    | head r | owner r =>
        have hr : r < g.rings.toNat := hf₁
        simp only [place]
        omega
    | _ => cases hown
  obtain ⟨hmod, hlo, hhi⟩ := hline f hown hf
  cases f' with
  | key i =>
      have hi : i < g.maxNames.toNat := hf'
      simp only [place, size] at hx hlt
      omega
  | nameByte i j =>
      have hi : i < g.maxNames.toNat := hf'.1
      have hj : j < 64 := hf'.2
      simp only [place, size] at hx hlt
      omega
  | tableCount | tableCapacity | nextTag =>
      simp only [place, size] at hx hlt
      omega
  | head r =>
      obtain ⟨hmod', -, -⟩ := hline (.head r) trivial hf'
      simp only [place, size] at hx hlt hmod'
      intro hsame
      have hplace : g.tablePlace + 64 + 128 * r = f.place g := by omega
      exact hne (place_inj hf' hf hplace)
  | owner r =>
      obtain ⟨hmod', -, -⟩ := hline (.owner r) trivial hf'
      simp only [place, size] at hx hlt hmod'
      intro hsame
      have hplace : g.tablePlace + 64 + 128 * r + 64 = f.place g := by omega
      exact hne (place_inj hf' hf hplace)
  | timestamp r k | point r k | event r k =>
      simp only [place, size] at hx hlt
      omega
  | _ =>
      simp only [place, size] at hx hlt
      omega

end BlockField

/-! ## The blocks of accepted settings -/

/-- What `create_shared` and `attach_shared` are given of the settings. -/
def SessionConfig.geometry {F : Type} (cfg : SessionConfig F) : BlockGeometry :=
  ⟨cfg.maxNames, cfg.maxThreadRings, cfg.threadRingCapacity⟩

theorem accepted_of_validateConfig {F : Type} {fmt : FloatText F} {tests : DoubleTests F} {env : StartEnvironment}
    {cfg : SessionConfig F} (h : validateConfig fmt tests env cfg = .ok ()) : cfg.geometry.Accepted := by
  unfold validateConfig at h
  extract_lets ringBytes at h
  split_ifs at h with hqueue hring hrings hbytes
  all_goals exact ⟨UInt32.not_lt.mp hrings, UInt64.not_lt.mp hbytes⟩

/-- The fields that a geometry has. -/
def BlockGeometry.fields (g : BlockGeometry) : Layout {f : BlockField // f.Within g} :=
  .ofDecode (fun f => f.1.place g) (fun f => f.1.size) Subtype.val Subtype.val_injective (BlockField.lying g)
    fun f _ hx hlt => BlockField.lying_eq f.2 hx hlt

/-- Whatever settings `validate_config` lets through, every field of their block lies in the segment and at a multiple
of its size, no two share a byte, and a head or a claim shares its cache line with no other field. -/
theorem block_fields_apart {F : Type} (fmt : FloatText F) (tests : DoubleTests F) (env : StartEnvironment)
    (cfg : SessionConfig F) (h : validateConfig fmt tests env cfg = .ok ()) :
    (∀ f : BlockField, f.Within cfg.geometry → (f.offset cfg.geometry).toNat % f.size = 0 ∧
      (f.offset cfg.geometry).toNat + f.size ≤ cfg.geometry.bytesFor.toNat) ∧
    ∀ f f' : BlockField, f.Within cfg.geometry → f'.Within cfg.geometry → f ≠ f' →
      ((f.offset cfg.geometry).toNat + f.size ≤ (f'.offset cfg.geometry).toNat ∨
        (f'.offset cfg.geometry).toNat + f'.size ≤ (f.offset cfg.geometry).toNat) ∧
      (f.OwnLine → ∀ x, (f'.offset cfg.geometry).toNat ≤ x → x < (f'.offset cfg.geometry).toNat + f'.size →
        x / 64 ≠ (f.offset cfg.geometry).toNat / 64) := by
  have hg := accepted_of_validateConfig h
  refine ⟨fun f hf => ?_, fun f f' hf hf' hne => ?_⟩
  · rw [BlockField.offset_toNat hg hf]
    exact BlockField.place_spec hg hf
  · rw [BlockField.offset_toNat hg hf, BlockField.offset_toNat hg hf']
    refine ⟨?_, fun hown x hx hlt => BlockField.ownLine_alone hf hf' hown hne.symm hx hlt⟩
    have hne' : (⟨f, hf⟩ : {f : BlockField // f.Within cfg.geometry}) ≠ ⟨f', hf'⟩ := fun he =>
      hne (Subtype.ext_iff.mp he)
    exact cfg.geometry.fields.le_or_le hne' f.size_pos f'.size_pos

/-- A collector of 512 names and 64 rings. -/
def wholeSettings : SessionConfig Nat :=
  ⟨.sharedCollector, ascii "app", 512, ascii "perfmon.csv", 65536, 64, 65536, ⟨[50, 99], .nanoseconds, false⟩, false⟩

/-- The last sample is inside the block. The claim word of the last ring is apart from the first sample, which comes next,
and shares its line neither with it nor with its own head. -/
theorem block_fields_apart_wholeSettings :
    let g := wholeSettings.geometry
    (((BlockField.event 63 65535).offset g).toNat % 4 = 0 ∧
      ((BlockField.event 63 65535).offset g).toNat + 4 ≤ g.bytesFor.toNat) ∧
    (((BlockField.owner 63).offset g).toNat + 8 ≤ ((BlockField.timestamp 0 0).offset g).toNat ∨
      ((BlockField.timestamp 0 0).offset g).toNat + 8 ≤ ((BlockField.owner 63).offset g).toNat) ∧
    (∀ x, ((BlockField.timestamp 0 0).offset g).toNat ≤ x → x < ((BlockField.timestamp 0 0).offset g).toNat + 8 →
      x / 64 ≠ ((BlockField.owner 63).offset g).toNat / 64) ∧
    ∀ x, ((BlockField.head 63).offset g).toNat ≤ x → x < ((BlockField.head 63).offset g).toNat + 8 →
      x / 64 ≠ ((BlockField.owner 63).offset g).toNat / 64 := by
  intro g
  obtain ⟨hwithin, hapart⟩ :=
    block_fields_apart wholeNumbers wholeTests ⟨none, none, none, fun _ => [], 249⟩ wholeSettings (by decide +kernel)
  have hsample := hapart (.owner 63) (.timestamp 0 0) (by decide) (by decide) (by decide)
  have hhead := hapart (.owner 63) (.head 63) (by decide) (by decide) (by decide)
  exact ⟨hwithin (.event 63 65535) (by decide), hsample.1, hsample.2 trivial, hhead.2 trivial⟩

end SlickPerfmon
