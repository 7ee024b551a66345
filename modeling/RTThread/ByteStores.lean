import RTThread.ByteMemory

namespace RTThread

/-- Stores of bytes, the first one first. -/
def storeAll (m : Memory) (stores : List (Nat × UInt8)) : Memory :=
  stores.foldl (fun m s => write8 m s.1 s.2.toNat) m

/-- The stores of a string from an address on. -/
def storesAt : Nat → List UInt8 → List (Nat × UInt8)
  | _, [] => []
  | a, ch :: rest => (a, ch) :: storesAt (word (a + 1)) rest

/-- What stands at an address behind the stores does not depend on the memory in front of them. -/
def Stored (stores : List (Nat × UInt8)) (x : Nat) : Prop := ∃ s ∈ stores, s.1 = x

/-- All stores are in the `size` bytes from `buf`. -/
def StoresWithin (buf size : Nat) (stores : List (Nat × UInt8)) : Prop :=
  ∀ s ∈ stores, buf ≤ s.1 ∧ s.1 < buf + size

/-- The string stands at the address. -/
def HoldsBytes (m : Memory) (a : Nat) (bs : List UInt8) : Prop :=
  ∀ i (h : i < bs.length), m.byte (a + i) = bs[i]

section
variable {m m' : Memory} {a b n x size : Nat} {bs cs : List UInt8}
  {stores rest : List (Nat × UInt8)}

theorem storeAll_append : storeAll m (stores ++ rest) = storeAll (storeAll m stores) rest :=
  List.foldl_append

theorem storeAll_cons (s : Nat × UInt8) :
    storeAll m (s :: rest) = storeAll (write8 m s.1 s.2.toNat) rest := rfl

theorem storeAll_outside (h : ¬ Stored stores x) : (storeAll m stores).byte x = m.byte x := by
  induction stores generalizing m with
  | nil => rfl
  | cons s rest ih =>
    have hne : x ≠ s.1 := fun heq => h ⟨s, List.mem_cons_self, heq.symm⟩
    rw [storeAll_cons, ih fun hrest => h (hrest.imp fun t ht => ⟨List.mem_cons_of_mem s ht.1,
      ht.2⟩)]
    exact if_neg hne

theorem storeAll_stored (h : Stored stores x) (m m' : Memory) :
    (storeAll m stores).byte x = (storeAll m' stores).byte x := by
  induction stores generalizing m m' with
  | nil =>
    obtain ⟨s, hs, -⟩ := h
    cases hs
  | cons s rest ih =>
    rw [storeAll_cons, storeAll_cons]
    by_cases hrest : Stored rest x
    · exact ih hrest _ _
    · rw [storeAll_outside hrest, storeAll_outside hrest]
      obtain ⟨t, ht, rfl⟩ := h
      rcases List.mem_cons.mp ht with rfl | ht
      · exact (if_pos rfl).trans (if_pos rfl).symm
      · exact absurd ⟨t, ht, rfl⟩ hrest

theorem Stored.append_left (h : Stored stores x) : Stored (stores ++ rest) x := by
  obtain ⟨s, hs, hx⟩ := h
  exact ⟨s, List.mem_append_left rest hs, hx⟩

theorem Stored.append_right (h : Stored rest x) : Stored (stores ++ rest) x := by
  obtain ⟨s, hs, hx⟩ := h
  exact ⟨s, List.mem_append_right stores hs, hx⟩

/-- A memory with another byte there shows a store that lies outside. -/
theorem storesWithin_of (h : ∀ m : Memory, ∃ m1, ∀ x, x < a ∨ a + size ≤ x →
    (storeAll m1 stores).byte x = m.byte x) : StoresWithin a size stores := by
  intro s hs
  by_contra hout
  obtain ⟨m1, hkeeps⟩ := h ⟨fun _ => (storeAll ⟨fun _ => 0⟩ stores).byte s.1 + 1⟩
  have hbyte := hkeeps s.1 (by omega)
  rw [storeAll_stored ⟨s, hs, rfl⟩ _ ⟨fun _ => 0⟩] at hbyte
  exact uint8_ne_succ _ hbyte

/-- Nothing outside a range changes in any memory exactly where no store lies outside. -/
theorem storesWithin_iff : StoresWithin a size stores ↔
    ∀ m x, x < a ∨ a + size ≤ x → (storeAll m stores).byte x = m.byte x := by
  constructor
  · intro h m x hx
    apply storeAll_outside
    rintro ⟨s, hs, rfl⟩
    have := h s hs
    omega
  · exact fun h => storesWithin_of fun m => ⟨m, h m⟩

theorem storesAt_append (ha : a < 4294967296) :
    storesAt a (bs ++ cs) = storesAt a bs ++ storesAt (word (a + bs.length)) cs := by
  induction bs generalizing a with
  | nil => rw [List.nil_append, List.length_nil, Nat.add_zero, word_of_lt ha]; rfl
  | cons ch bs ih =>
    rw [List.cons_append, storesAt, storesAt, List.cons_append, ih (word_lt _), word_word,
      List.length_cons,
      Nat.add_assoc, Nat.add_comm 1]

theorem mem_storesAt {s : Nat × UInt8} (ha : a < 4294967296) :
    s ∈ storesAt a bs ↔ ∃ i, bs[i]? = some s.2 ∧ s.1 = word (a + i) := by
  induction bs generalizing a with
  | nil => simp [storesAt]
  | cons ch bs ih =>
    rw [storesAt, List.mem_cons, ih (word_lt _)]
    constructor
    · rintro (rfl | ⟨i, hi, hs⟩)
      · exact ⟨0, rfl, (word_of_lt ha).symm⟩
      · exact ⟨i + 1, hi, by rw [hs, word_word, Nat.add_assoc, Nat.add_comm 1]⟩
    · rintro ⟨i, hi, hs⟩
      cases i with
      | zero =>
        left
        rw [Nat.add_zero, word_of_lt ha] at hs
        exact Prod.ext hs (Option.some.inj hi).symm
      | succ i => exact .inr ⟨i, hi, by rw [hs, word_word, Nat.add_assoc, Nat.add_comm 1]⟩

theorem storesAt_within {buf : Nat} (hlow : buf ≤ a) (hhigh : a + bs.length ≤ buf + size)
    (htop : buf + size ≤ 4294967296) (ha : a < 4294967296) :
    StoresWithin buf size (storesAt a bs) := by
  intro s hs
  obtain ⟨i, hi, hx⟩ := (mem_storesAt ha).mp hs
  have hlt := (List.getElem?_eq_some_iff.mp hi).1
  rw [word_of_lt (by omega)] at hx
  omega

theorem StoresWithin.append (h : StoresWithin a size stores) (h' : StoresWithin a size rest) :
    StoresWithin a size (stores ++ rest) := by
  intro s hs
  rcases List.mem_append.mp hs with hs | hs
  · exact h s hs
  · exact h' s hs

theorem HoldsBytes.storesAt_self (htop : a + bs.length ≤ 4294967296) (ha : a < 4294967296) :
    HoldsBytes (storeAll m (storesAt a bs)) a bs := by
  induction bs generalizing a m with
  | nil => exact fun i hi => absurd hi (Nat.not_lt_zero i)
  | cons ch bs ih =>
    rw [List.length_cons] at htop
    intro i hi
    rw [storesAt, storeAll_cons]
    cases i with
    | zero =>
      rw [storeAll_outside]
      · exact (if_pos rfl).trans UInt8.ofNat_toNat
      · rintro ⟨s, hs, hx⟩
        obtain ⟨j, hj, heq⟩ := (mem_storesAt (word_lt _)).mp hs
        have hlt := (List.getElem?_eq_some_iff.mp hj).1
        rw [word_word, word_of_lt (by omega)] at heq
        omega
    | succ i =>
      rw [List.length_cons] at hi
      have hnext := ih (a := word (a + 1)) (m := write8 m a ch.toNat)
        (by rw [word_of_lt (by omega)]; omega)
        (word_lt _) i (by omega)
      rw [word_of_lt (show a + 1 < 4294967296 by omega)] at hnext ⊢
      rw [show a + (i + 1) = a + 1 + i by omega, hnext]
      rfl

theorem HoldsBytes.append (h : HoldsBytes m a bs) (h' : HoldsBytes m (a + bs.length) cs) :
    HoldsBytes m a (bs ++ cs) := by
  intro i hi
  rw [List.getElem_append]
  split
  next hlt => exact h i hlt
  next hge =>
    have := h' (i - bs.length) (by rw [List.length_append] at hi; omega)
    rwa [show a + bs.length + (i - bs.length) = a + i by omega] at this

theorem HoldsBytes.take (h : HoldsBytes m a bs) (n : Nat) : HoldsBytes m a (bs.take n) := by
  intro i hi
  rw [List.getElem_take]
  exact h i _

/-- Stores behind what the buffer holds leave it there. -/
theorem HoldsBytes.keep (h : HoldsBytes m a bs) (hwithin : StoresWithin (a + bs.length) size stores) :
    HoldsBytes (storeAll m stores) a bs := by
  intro i hi
  rw [storeAll_outside, h i hi]
  rintro ⟨s, hs, hx⟩
  have := hwithin s hs
  omega

theorem HoldsBytes.extend (h : HoldsBytes m a bs) (hwithin : StoresWithin (a + bs.length) size stores)
    (hmore : HoldsBytes (storeAll m stores) (a + bs.length) cs) :
    HoldsBytes (storeAll m stores) a (bs ++ cs) :=
  (h.keep hwithin).append hmore

theorem StoresWithin.from_above (h : StoresWithin (a + n) (size - n) stores) (hn : n ≤ size) :
    StoresWithin a size stores := by
  intro s hs
  have := h s hs
  omega

theorem not_storesWithin (h : Stored stores x) (hx : x < a ∨ a + size ≤ x) :
    ¬ StoresWithin a size stores := by
  intro hwithin
  obtain ⟨s, hs, rfl⟩ := h
  have := hwithin s hs
  omega

theorem HoldsBytes.congr (h : HoldsBytes m a bs) (hsame : ∀ x, a ≤ x → x < a + bs.length →
    m'.byte x = m.byte x) :
    HoldsBytes m' a bs := by
  intro i hi
  rw [hsame (a + i) (by omega) (by omega), h i hi]

end

end RTThread
