import Mathlib.Tactic

namespace RTThread

/-- A 32-bit address space: what is stored at each address. -/
structure Memory where
  byte : Nat → UInt8

def word (n : Nat) : Nat := n % 4294967296

def wordSub (a b : Nat) : Nat := (a + 4294967296 - b) % 4294967296

theorem word_of_lt {n : Nat} (h : n < 4294967296) : word n = n := Nat.mod_eq_of_lt h

theorem word_lt (n : Nat) : word n < 4294967296 := Nat.mod_lt _ (by decide)

theorem word_word (a k : Nat) : word (word a + k) = word (a + k) := by
  unfold word
  omega

theorem uint8_ne_succ (v : UInt8) : v ≠ v + 1 := by
  intro h
  have hnat := congrArg UInt8.toNat h
  rw [UInt8.toNat_add] at hnat
  have hlt := v.toNat_lt
  change v.toNat = (v.toNat + 1) % 256 at hnat
  omega

theorem wordSub_of_le {a b : Nat} (ha : a < 4294967296) (hb : b ≤ a) : wordSub a b = a - b := by
  unfold wordSub
  omega

def read16 (m : Memory) (a : Nat) : Nat := (m.byte a).toNat + 256 * (m.byte (a + 1)).toNat

def read32 (m : Memory) (a : Nat) : Nat := read16 m a + 65536 * read16 m (a + 2)

def write8 (m : Memory) (a v : Nat) : Memory :=
  ⟨fun x => if x = a then UInt8.ofNat v else m.byte x⟩

/-- Little-endian stores; `UInt8.ofNat` keeps the low byte. -/
def write16 (m : Memory) (a v : Nat) : Memory := write8 (write8 m a v) (a + 1) (v / 256)

def write32 (m : Memory) (a v : Nat) : Memory := write16 (write16 m a v) (a + 2) (v / 65536)

/-- Address `x` lies in the `n` bytes from `a`, counting past the top of the address space. -/
def InRange (a n x : Nat) : Prop := wordSub x a < n

instance (a n x : Nat) : Decidable (InRange a n x) := inferInstanceAs (Decidable (_ < _))

def rtMemset (m : Memory) (a v n : Nat) : Memory :=
  ⟨fun x => if InRange a n x then UInt8.ofNat v else m.byte x⟩

def rtMemcpy (m : Memory) (dst src n : Nat) : Memory :=
  ⟨fun x => if InRange dst n x then m.byte (word (src + wordSub x dst)) else m.byte x⟩

theorem read16_lt (m : Memory) (a : Nat) : read16 m a < 65536 := by
  have h0 := (m.byte a).toNat_lt
  have h1 := (m.byte (a + 1)).toNat_lt
  unfold read16
  omega

theorem read32_lt (m : Memory) (a : Nat) : read32 m a < 4294967296 := by
  have h0 := read16_lt m a
  have h1 := read16_lt m (a + 2)
  unfold read32
  omega

theorem read16_congr {m m' : Memory} {a : Nat} (h : ∀ x, a ≤ x → x < a + 2 → m'.byte x = m.byte x) :
    read16 m' a = read16 m a := by
  unfold read16
  rw [h a (by omega) (by omega), h (a + 1) (by omega) (by omega)]

theorem read32_congr {m m' : Memory} {a : Nat} (h : ∀ x, a ≤ x → x < a + 4 → m'.byte x = m.byte x) :
    read32 m' a = read32 m a := by
  unfold read32
  rw [read16_congr fun x hx hb => h x hx (by omega),
    read16_congr fun x hx hb => h x (by omega) (by omega)]

theorem write16_outside {m : Memory} {a v x : Nat} (h : x < a ∨ a + 2 ≤ x) :
    (write16 m a v).byte x = m.byte x := by
  simp only [write16, write8]
  rw [if_neg (by omega), if_neg (by omega)]

theorem write32_outside {m : Memory} {a v x : Nat} (h : x < a ∨ a + 4 ≤ x) :
    (write32 m a v).byte x = m.byte x := by
  unfold write32
  rw [write16_outside (by omega), write16_outside (by omega)]

theorem read16_write16_same (m : Memory) (a v : Nat) : read16 (write16 m a v) a = v % 65536 := by
  have hne : a ≠ a + 1 := by omega
  simp only [read16, write16, write8, if_true, if_neg hne, UInt8.toNat_ofNat']
  omega

theorem read16_write16_disjoint (m : Memory) {a b v : Nat} (h : b + 2 ≤ a ∨ a + 2 ≤ b) :
    read16 (write16 m a v) b = read16 m b :=
  read16_congr fun x _ _ => write16_outside (by omega)

theorem read16_write32_disjoint (m : Memory) {a b v : Nat} (h : b + 2 ≤ a ∨ a + 4 ≤ b) :
    read16 (write32 m a v) b = read16 m b :=
  read16_congr fun x _ _ => write32_outside (by omega)

theorem read32_write16_disjoint (m : Memory) {a b v : Nat} (h : b + 4 ≤ a ∨ a + 2 ≤ b) :
    read32 (write16 m a v) b = read32 m b :=
  read32_congr fun x _ _ => write16_outside (by omega)

theorem read32_write32_disjoint (m : Memory) {a b v : Nat} (h : b + 4 ≤ a ∨ a + 4 ≤ b) :
    read32 (write32 m a v) b = read32 m b :=
  read32_congr fun x _ _ => write32_outside (by omega)

theorem read32_write32_same (m : Memory) (a v : Nat) : read32 (write32 m a v) a = word v := by
  unfold read32 write32
  rw [read16_write16_disjoint _ (by omega), read16_write16_same, read16_write16_same]
  unfold word
  omega

theorem rtMemset_outside {m : Memory} {a v n x : Nat} (h : ¬InRange a n x) :
    (rtMemset m a v n).byte x = m.byte x := if_neg h

theorem rtMemcpy_outside {m : Memory} {dst src n x : Nat} (h : ¬InRange dst n x) :
    (rtMemcpy m dst src n).byte x = m.byte x := if_neg h

theorem not_inRange {a n x : Nat} (hx : x < 4294967296) (ha : a + n ≤ 4294967296)
    (h : x < a ∨ a + n ≤ x) : ¬InRange a n x := by
  unfold InRange wordSub
  omega

end RTThread
