import SlickPerfmon.Library.ByteMemory
import SlickPerfmon.Session.AttachHandshake

/-!
# The bytes of a control block

Where `names`, `rings`, `slot` and `view` find the fields of a block, in the arithmetic of `size_t`. Sizes and offsets
inside a struct are those of its members in order, each aligned to its own size.
-/

namespace SlickPerfmon

open Library

/-! ## Fields -/

/-- A field of the header, of a name, of the ring table, of a ring's slot or of a sample `k` of ring `r`. -/
inductive BlockField
  | magic
  | layoutVersion
  | maxNames
  | nameCapacity
  | ringCount
  | ringCapacity
  | tscHzMilli
  | invariantTsc
  | initState
  | nameGeneration
  | key (i : Nat)
  | nameByte (i j : Nat)
  | tableCount
  | tableCapacity
  | nextTag
  | head (r : Nat)
  | owner (r : Nat)
  | timestamp (r k : Nat)
  | point (r k : Nat)
  | event (r k : Nat)
deriving DecidableEq, Repr

/-! The sizes of `control_block`, `name_entry`, `ring_table_header`, `ring_slot` and `sample`. -/

def kControlBlockBytes : UInt64 := 48
def kNameEntryBytes : UInt64 := 72
def kTableHeaderBytes : UInt64 := 64
def kRingSlotBytes : UInt64 := 128
def kSampleBytes : UInt64 := 16

namespace BlockGeometry

variable (g : BlockGeometry)

def ringsOffset : UInt64 := (kControlBlockBytes + g.maxNames.toUInt64 * kNameEntryBytes + 63) &&& ~~~63

/-- `ring_table::bytes_for`. -/
def tableBytes : UInt64 :=
  kTableHeaderBytes + g.rings.toUInt64 * kRingSlotBytes + g.rings.toUInt64 * g.ringCapacity.toUInt64 * kSampleBytes

def bytesFor : UInt64 := if g.rings = 0 then g.ringsOffset else g.ringsOffset + g.tableBytes

def nameEntry (i : Nat) : UInt64 := kControlBlockBytes + UInt64.ofNat i * kNameEntryBytes

/-- `ring_table::slot`. -/
def slot (r : Nat) : UInt64 := g.ringsOffset + kTableHeaderBytes + UInt64.ofNat r * kRingSlotBytes

/-- Sample `k` of what `ring_table::view` gives for ring `r`. -/
def sample (r k : Nat) : UInt64 :=
  g.ringsOffset + kTableHeaderBytes + g.rings.toUInt64 * kRingSlotBytes +
    UInt64.ofNat r * g.ringCapacity.toUInt64 * kSampleBytes + UInt64.ofNat k * kSampleBytes

end BlockGeometry

namespace BlockField

def size : BlockField → Nat
  | .tscHzMilli | .nameGeneration | .key _ | .head _ | .owner _ | .timestamp .. => 8
  | .nameByte .. => 1
  | _ => 4

/-- The address of a field, from the start of the block. -/
def offset (g : BlockGeometry) : BlockField → UInt64
  | .magic => 0
  | .layoutVersion => 4
  | .maxNames => 8
  | .nameCapacity => 12
  | .ringCount => 16
  | .ringCapacity => 20
  | .tscHzMilli => 24
  | .invariantTsc => 32
  | .initState => 36
  | .nameGeneration => 40
  | .key i => BlockGeometry.nameEntry i
  | .nameByte i j => BlockGeometry.nameEntry i + 8 + UInt64.ofNat j
  | .tableCount => g.ringsOffset
  | .tableCapacity => g.ringsOffset + 4
  | .nextTag => g.ringsOffset + 8
  | .head r => g.slot r
  | .owner r => g.slot r + 64
  | .timestamp r k => g.sample r k
  | .point r k => g.sample r k + 8
  | .event r k => g.sample r k + 12

/-- A block of this geometry has the field. -/
def Within (g : BlockGeometry) : BlockField → Prop
  | .key i => i < g.maxNames.toNat
  | .nameByte i j => i < g.maxNames.toNat ∧ j < ControlHeader.kNameCapacity.toNat
  | .tableCount | .tableCapacity | .nextTag => 0 < g.rings.toNat
  | .head r | .owner r => r < g.rings.toNat
  | .timestamp r k | .point r k | .event r k => r < g.rings.toNat ∧ k < g.ringCapacity.toNat
  | _ => True

instance (g : BlockGeometry) : (f : BlockField) → Decidable (f.Within g)
  | .key i => inferInstanceAs (Decidable (i < g.maxNames.toNat))
  | .nameByte .. => inferInstanceAs (Decidable (_ ∧ _))
  | .tableCount | .tableCapacity | .nextTag => inferInstanceAs (Decidable (0 < g.rings.toNat))
  | .head r | .owner r => inferInstanceAs (Decidable (r < g.rings.toNat))
  | .timestamp .. | .point .. | .event .. => inferInstanceAs (Decidable (_ ∧ _))
  | .magic | .layoutVersion | .maxNames | .nameCapacity | .ringCount | .ringCapacity | .tscHzMilli | .invariantTsc
  | .initState | .nameGeneration => isTrue trivial

def read (g : BlockGeometry) (mem : ByteMemory) (f : BlockField) : Nat := mem.load f.size (f.offset g).toNat

def write (g : BlockGeometry) (mem : ByteMemory) (f : BlockField) (v : Nat) : ByteMemory :=
  mem.store f.size (f.offset g).toNat v

end BlockField

end SlickPerfmon
