import Mathlib.Algebra.Order.Group.Nat

/-!
# Words in a byte memory

A memory is a byte for each address. Words lie in it with their low byte first; a store changes the bytes of its range
and no other, so that a load of a range it does not meet gives what it gave.
-/

namespace SlickPerfmon.Library

abbrev ByteMemory := Nat → UInt8

namespace ByteMemory

variable (mem : ByteMemory)

/-- The word of `n` bytes at `a`. -/
def load : Nat → Nat → Nat
  | 0, _ => 0
  | n + 1, a => (mem a).toNat + 256 * load n (a + 1)

/-- Byte `k` of a word. -/
def byteOf (v k : Nat) : UInt8 := UInt8.ofNat (v / 256 ^ k)

def store (n a v : Nat) : ByteMemory := fun x => if a ≤ x ∧ x < a + n then byteOf v (x - a) else mem x

variable {mem} {mem' : ByteMemory}

/-- A load reads its own range only. -/
theorem load_congr {n a : Nat} (h : ∀ x, a ≤ x → x < a + n → mem' x = mem x) : mem'.load n a = mem.load n a := by
  induction n generalizing a with
  | zero => rfl
  | succ n ih =>
      have hrest := ih (a := a + 1) fun x hlo hhi => h x (by omega) (by omega)
      rw [load, load, h a (Nat.le_refl a) (by omega), hrest]

/-- The bytes of a word, read back. -/
theorem load_of_bytes {n a v : Nat} (h : ∀ k, k < n → mem (a + k) = byteOf v k) : mem.load n a = v % 256 ^ n := by
  induction n generalizing a v with
  | zero => rw [load, Nat.pow_zero, Nat.mod_one]
  | succ n ih =>
      have hrest := ih (a := a + 1) (v := v / 256) fun k hk => by
        have hbyte := h (k + 1) (by omega)
        rw [byteOf, Nat.div_div_eq_div_mul, ← Nat.pow_succ', ← byteOf, ← hbyte]
        congr 1
        omega
      have hfirst : (mem a).toNat = v % 256 := by
        have hbyte := h 0 (Nat.succ_pos n)
        rw [Nat.add_zero, byteOf, Nat.pow_zero, Nat.div_one] at hbyte
        rw [hbyte, UInt8.toNat_ofNat']
      rw [load, hfirst, hrest, Nat.pow_succ', Nat.mod_mul]

theorem load_store_self (mem : ByteMemory) (n a v : Nat) : (mem.store n a v).load n a = v % 256 ^ n := by
  refine load_of_bytes fun k hk => ?_
  rw [store, if_pos ⟨by omega, by omega⟩, Nat.add_sub_cancel_left]

theorem load_store_of_disjoint (mem : ByteMemory) {n a k b : Nat} (v : Nat)
    (h : ∀ x, a ≤ x → x < a + n → ¬(b ≤ x ∧ x < b + k)) : (mem.store k b v).load n a = mem.load n a :=
  load_congr fun x hlo hhi => if_neg (h x hlo hhi)

end ByteMemory

/-! ## Fields -/

/-- Fields of a memory, no two of which share a byte. -/
structure Layout (Field : Type) where
  place : Field → Nat
  size : Field → Nat
  apart : ∀ {f f' : Field}, f ≠ f' → ∀ x, place f ≤ x → x < place f + size f →
    ¬(place f' ≤ x ∧ x < place f' + size f')

namespace Layout

variable {Field : Type}

/-- Fields are apart when an address tells which of them it lies in. -/
def ofDecode {Name : Type} (place size : Field → Nat) (name : Field → Name) (hname : Function.Injective name)
    (decode : Nat → Option Name)
    (h : ∀ f x, place f ≤ x → x < place f + size f → decode x = some (name f)) : Layout Field where
  place := place
  size := size
  apart {f f'} hne x hlo hhi h' :=
    hne (hname (Option.some.inj ((h f x hlo hhi).symm.trans (h f' x h'.1 h'.2))))

variable (L : Layout Field)

def read (mem : ByteMemory) (f : Field) : Nat := mem.load (L.size f) (L.place f)

def write (mem : ByteMemory) (f : Field) (v : Nat) : ByteMemory := mem.store (L.size f) (L.place f) v

theorem read_write_self (mem : ByteMemory) (f : Field) (v : Nat) :
    L.read (L.write mem f v) f = v % 256 ^ L.size f := mem.load_store_self _ _ v

theorem read_write_of_ne (mem : ByteMemory) {f f' : Field} (v : Nat) (h : f' ≠ f) :
    L.read (L.write mem f v) f' = L.read mem f' := mem.load_store_of_disjoint v (L.apart h)

theorem le_or_le {f f' : Field} (h : f ≠ f') (hf : 0 < L.size f) (hf' : 0 < L.size f') :
    L.place f + L.size f ≤ L.place f' ∨ L.place f' + L.size f' ≤ L.place f := by
  rcases Nat.le_total (L.place f) (L.place f') with hle | hle
  · have hfirst := L.apart h (L.place f') hle
    omega
  · have hfirst := L.apart h (L.place f) (Nat.le_refl _)
    omega

end Layout

end SlickPerfmon.Library
