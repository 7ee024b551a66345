import RTThread.HeapHeaders
import RTThread.MemHeapModel
import RTThread.Rings

namespace RTThread

/-- What the block list keeps in an item. -/
structure MemTag where
  magic : Nat
  poolPtr : Nat
deriving DecidableEq

def blockLinks (m : Memory) (item : Nat) : Links MemTag :=
  ⟨⟨getItem m .magic item, getItem m .poolPtr item⟩, getItem m .next item, getItem m .prev item⟩

/-- Two items are the same or share no byte. -/
def Beside (a b : Nat) : Prop := a = b ∨ a + sizeofMemheapItem ≤ b ∨ b + sizeofMemheapItem ≤ a

/-- `m'` differs from `m` in no field of the block list at `x`. -/
def SameLinks (m m' : Memory) (x : Nat) : Prop := blockLinks m' x = blockLinks m x

/-- `m'` differs from `m` in no field of the free list at `x`. -/
def SameFree (m m' : Memory) (x : Nat) : Prop :=
  getItem m' .nextFree x = getItem m .nextFree x ∧ getItem m' .prevFree x = getItem m .prevFree x

section
variable {A : AlignSize} {m m' m'' : Memory} {f g : ItemField} {a b c o n v x : Nat}

theorem Beside.symm (h : Beside a b) : Beside b a := by
  unfold Beside at h ⊢
  omega

theorem SameLinks.trans (h1 : SameLinks m m' x) (h2 : SameLinks m' m'' x) : SameLinks m m'' x :=
  Eq.trans h2 h1

theorem SameFree.trans (h1 : SameFree m m' x) (h2 : SameFree m' m'' x) : SameFree m m'' x :=
  ⟨h2.1.trans h1.1, h2.2.trans h1.2⟩

theorem offset_apart (h : f ≠ g) : f.offset + 4 ≤ g.offset ∨ g.offset + 4 ≤ f.offset := by
  cases f <;> cases g <;> simp [ItemField.offset] at h ⊢

theorem offset_le (f : ItemField) : f.offset + 4 ≤ sizeofMemheapItem := by
  cases f <;> decide

theorem getItem_lt (m : Memory) (f : ItemField) (x : Nat) : getItem m f x < 4294967296 := read32_lt _ _

theorem getItem_setItem_self (hv : v < 4294967296) : getItem (setItem m f a v) f a = v :=
  (read32_write32_same m (a + f.offset) v).trans (word_of_lt hv)

theorem getItem_setItem_field (h : Beside a b) (hfg : f ≠ g) :
    getItem (setItem m f a v) g b = getItem m g b := by
  have hf := offset_le f
  have hg := offset_le g
  have happ := offset_apart hfg
  unfold Beside at h
  exact read32_write32_disjoint m (by omega)

theorem getItem_setItem_item (h : Beside a b) (hab : a ≠ b) :
    getItem (setItem m f a v) g b = getItem m g b := by
  have hf := offset_le f
  have hg := offset_le g
  unfold Beside at h
  exact read32_write32_disjoint m (by omega)

theorem sameLinks_free (h : Beside a b) (hf : f = .nextFree ∨ f = .prevFree) :
    SameLinks m (setItem m f a v) b := by
  have hne : f ≠ .magic ∧ f ≠ .poolPtr ∧ f ≠ .next ∧ f ≠ .prev := by
    rcases hf with rfl | rfl <;> decide
  obtain ⟨h1, h2, h3, h4⟩ := hne
  unfold SameLinks blockLinks
  rw [getItem_setItem_field h h1, getItem_setItem_field h h2, getItem_setItem_field h h3,
    getItem_setItem_field h h4]

theorem sameLinks_item (h : Beside a b) (hab : a ≠ b) : SameLinks m (setItem m f a v) b := by
  unfold SameLinks blockLinks
  rw [getItem_setItem_item h hab, getItem_setItem_item h hab, getItem_setItem_item h hab,
    getItem_setItem_item h hab]

theorem sameFree_field (h : Beside a b) (hn : f ≠ .nextFree) (hp : f ≠ .prevFree) :
    SameFree m (setItem m f a v) b :=
  ⟨getItem_setItem_field h hn, getItem_setItem_field h hp⟩

theorem sameFree_item (h : Beside a b) (hab : a ≠ b) : SameFree m (setItem m f a v) b :=
  ⟨getItem_setItem_item h hab, getItem_setItem_item h hab⟩

theorem blockLinks_setNext (hv : v < 4294967296) :
    blockLinks (setItem m .next a v) a = { blockLinks m a with next := v } := by
  unfold blockLinks
  rw [getItem_setItem_self hv, getItem_setItem_field (Or.inl rfl) (by decide),
    getItem_setItem_field (Or.inl rfl) (by decide), getItem_setItem_field (Or.inl rfl) (by decide)]

theorem blockLinks_setPrev (hv : v < 4294967296) :
    blockLinks (setItem m .prev a v) a = { blockLinks m a with prev := v } := by
  unfold blockLinks
  rw [getItem_setItem_self hv, getItem_setItem_field (Or.inl rfl) (by decide),
    getItem_setItem_field (Or.inl rfl) (by decide), getItem_setItem_field (Or.inl rfl) (by decide)]

theorem blockLinks_setMagic (hv : v < 4294967296) : blockLinks (setItem m .magic a v) a =
    { blockLinks m a with tag := { (blockLinks m a).tag with magic := v } } := by
  unfold blockLinks
  rw [getItem_setItem_self hv, getItem_setItem_field (Or.inl rfl) (by decide),
    getItem_setItem_field (Or.inl rfl) (by decide), getItem_setItem_field (Or.inl rfl) (by decide)]

theorem blockLinks_setPoolPtr (hv : v < 4294967296) : blockLinks (setItem m .poolPtr a v) a =
    { blockLinks m a with tag := { (blockLinks m a).tag with poolPtr := v } } := by
  unfold blockLinks
  rw [getItem_setItem_self hv, getItem_setItem_field (Or.inl rfl) (by decide),
    getItem_setItem_field (Or.inl rfl) (by decide), getItem_setItem_field (Or.inl rfl) (by decide)]

theorem memheapSize_ge (A : AlignSize) : sizeofMemheapItem ≤ A.memheapSize :=
  le_rtAlign (by
    have := A.size_le
    show 24 + A.size ≤ 4294967296
    omega)

theorem memheapSize_le (A : AlignSize) : A.memheapSize ≤ 536870935 := by
  have h := rtAlign_le A sizeofMemheapItem
  have := A.size_le
  have hsize : sizeofMemheapItem = 24 := rfl
  unfold AlignSize.memheapSize
  omega

/-- A new free item is linked in between `o` and the item after it. -/
theorem insertBlock_spec {self : Nat} (hn : getItem m .next o = n) (hco : Beside c o) (hcn : Beside c n)
    (hon : Beside o n) (hne : c ≠ o ∧ c ≠ n ∧ o ≠ n) (hc : c < 4294967296) (ho : o < 4294967296)
    (hself : self < 4294967296) :
    blockLinks (insertBlock (newItem m self c) o c) c = ⟨⟨memheapMagic, self⟩, n, o⟩ ∧
    blockLinks (insertBlock (newItem m self c) o c) o = { blockLinks m o with next := c } ∧
    blockLinks (insertBlock (newItem m self c) o c) n = { blockLinks m n with prev := c } ∧
    (∀ x, Beside c x → Beside o x → Beside n x → x ≠ c → x ≠ o → x ≠ n →
      SameLinks m (insertBlock (newItem m self c) o c) x) ∧
    ∀ x, Beside c x → Beside o x → Beside n x → SameFree m (insertBlock (newItem m self c) o c) x := by
  obtain ⟨hneo, hnen, hneon⟩ := hne
  have hnlt : n < 4294967296 := hn ▸ getItem_lt m .next o
  have hmagic : memheapMagic < 4294967296 := by decide
  -- the six stores, with what they read
  let m1 := setItem m .magic c memheapMagic
  let m2 := setItem m1 .poolPtr c self
  let m3 := setItem m2 .prev c o
  let m4 := setItem m3 .next c n
  let m5 := setItem m4 .prev n c
  let m6 := setItem m5 .next o c
  have hread3 : getItem m3 .next o = n := by
    rw [getItem_setItem_item hco hneo, getItem_setItem_item hco hneo, getItem_setItem_item hco hneo, hn]
  have hread4 : getItem m4 .next o = n := (getItem_setItem_item hco hneo).trans hread3
  have hall : insertBlock (newItem m self c) o c = m6 := by
    unfold insertBlock newItem
    simp only
    show setItem (setItem (setItem m3 .next c (getItem m3 .next o)) .prev
      (getItem (setItem m3 .next c (getItem m3 .next o)) .next o) c) .next o c = m6
    rw [hread3]
    show setItem (setItem m4 .prev (getItem m4 .next o) c) .next o c = m6
    rw [hread4]
  rw [hall]
  have hbefore : ∀ x, Beside c x → x ≠ c → SameLinks m m4 x := by
    intro x hx hxc
    have hcx : c ≠ x := Ne.symm hxc
    exact (((sameLinks_item hx hcx).trans (sameLinks_item hx hcx)).trans
      (sameLinks_item hx hcx)).trans (sameLinks_item hx hcx)
  refine ⟨?_, ?_, ?_, fun x hcx hox hnx h1 h2 h3 => ?_, fun x hcx hox hnx => ?_⟩
  · have h4 : blockLinks m4 c = ⟨⟨memheapMagic, self⟩, n, o⟩ := by
      rw [blockLinks_setNext hnlt, blockLinks_setPrev ho, blockLinks_setPoolPtr hself,
        blockLinks_setMagic hmagic]
    have h6 : SameLinks m4 m6 c :=
      (sameLinks_item hcn.symm (Ne.symm hnen)).trans (sameLinks_item hco.symm (Ne.symm hneo))
    exact Eq.trans h6 h4
  · have h5 : SameLinks m m5 o :=
      (hbefore o hco (Ne.symm hneo)).trans (sameLinks_item hon.symm (Ne.symm hneon))
    rw [blockLinks_setNext hc, show blockLinks m5 o = blockLinks m o from h5]
  · have h6 : SameLinks m5 m6 n := sameLinks_item hon hneon
    rw [show blockLinks m6 n = blockLinks m5 n from h6, blockLinks_setPrev hc,
      show blockLinks m4 n = blockLinks m n from hbefore n hcn (Ne.symm hnen)]
  · exact ((hbefore x hcx h1).trans (sameLinks_item hnx (Ne.symm h3))).trans
      (sameLinks_item hox (Ne.symm h2))
  · have h4 : SameFree m m4 x :=
      (((sameFree_field hcx (by decide) (by decide)).trans
        (sameFree_field hcx (by decide) (by decide))).trans
        (sameFree_field hcx (by decide) (by decide))).trans
        (sameFree_field hcx (by decide) (by decide))
    exact (h4.trans (sameFree_field hnx (by decide) (by decide))).trans
      (sameFree_field hox (by decide) (by decide))

/-- The items `o` and `k` have become neighbours in the block list. -/
structure Joined (m m' : Memory) (o k : Nat) : Prop where
  left : blockLinks m' o = { blockLinks m o with next := k }
  right : blockLinks m' k = { blockLinks m k with prev := o }
  others : ∀ x, Beside o x → Beside k x → x ≠ o → x ≠ k → SameLinks m m' x
  free : ∀ x, Beside o x → Beside k x → SameFree m m' x

theorem joined_prev_next (hok : Beside o k) (hne : o ≠ k) (ho : o < 4294967296) (hk : k < 4294967296) :
    Joined m (setItem (setItem m .prev k o) .next o k) o k := by
  refine ⟨?_, ?_, fun x hox hkx h1 h2 => ?_, fun x hox hkx => ?_⟩
  · have h1 : SameLinks m (setItem m .prev k o) o := sameLinks_item hok.symm (Ne.symm hne)
    rw [blockLinks_setNext hk, show blockLinks (setItem m .prev k o) o = blockLinks m o from h1]
  · have h2 : SameLinks (setItem m .prev k o) (setItem (setItem m .prev k o) .next o k) k :=
      sameLinks_item hok hne
    exact Eq.trans h2 (blockLinks_setPrev ho)
  · exact (sameLinks_item hkx (Ne.symm h2)).trans (sameLinks_item hox (Ne.symm h1))
  · exact (sameFree_field hkx (by decide) (by decide)).trans
      (sameFree_field hox (by decide) (by decide))

theorem joined_next_prev (hok : Beside o k) (hne : o ≠ k) (ho : o < 4294967296) (hk : k < 4294967296) :
    Joined m (setItem (setItem m .next o k) .prev k o) o k := by
  refine ⟨?_, ?_, fun x hox hkx h1 h2 => ?_, fun x hox hkx => ?_⟩
  · have h2 : SameLinks (setItem m .next o k) (setItem (setItem m .next o k) .prev k o) o :=
      sameLinks_item hok.symm (Ne.symm hne)
    exact Eq.trans h2 (blockLinks_setNext hk)
  · have h1 : SameLinks m (setItem m .next o k) k := sameLinks_item hok hne
    rw [blockLinks_setPrev ho, show blockLinks (setItem m .next o k) k = blockLinks m k from h1]
  · exact (sameLinks_item hox (Ne.symm h1)).trans (sameLinks_item hkx (Ne.symm h2))
  · exact (sameFree_field hox (by decide) (by decide)).trans
      (sameFree_field hkx (by decide) (by decide))

/-- The item `n` after `o` is left out of the block list. -/
theorem mergeNext_joined {k : Nat} (hn : getItem m .next o = n) (hk : getItem m .next n = k)
    (hnk : Beside n k) (hok : Beside o k) (hne : n ≠ k ∧ o ≠ k) (ho : o < 4294967296) :
    Joined m (mergeNext m o) o k := by
  have hread : getItem (setItem m .prev k o) .next n = k :=
    (getItem_setItem_item hnk.symm (Ne.symm hne.1)).trans hk
  have hall : mergeNext m o = setItem (setItem m .prev k o) .next o k := by
    unfold mergeNext
    simp only
    rw [hn, hk, hread]
  rw [hall]
  exact joined_prev_next hok hne.2 ho (hk ▸ getItem_lt m .next n)

/-- Any two of the items are the same or share no byte. -/
def AllPlaced (items : List Nat) : Prop := ∀ a ∈ items, ∀ b ∈ items, Beside a b

abbrev FreeRing (m : Memory) : Nat → List Nat → Prop :=
  Ring (getItem m .nextFree) (getItem m .prevFree)

theorem FreeRing.congr {fh : Nat} {fs : List Nat} (hr : FreeRing m fh fs)
    (hs : ∀ x ∈ fh :: fs, SameFree m m' x) : FreeRing m' fh fs :=
  Ring.congr hr (fun x hx => (hs x hx).1) fun x hx => (hs x hx).2

theorem removeFree_spec {fh : Nat} {us vs : List Nat} (hr : FreeRing m fh (us ++ x :: vs))
    (hp : AllPlaced (fh :: (us ++ x :: vs))) :
    FreeRing (removeFree m x) fh (us ++ vs) ∧
    ∀ c, (∀ y ∈ fh :: (us ++ x :: vs), Beside y c) → SameLinks m (removeFree m x) c := by
  let y := getItem m .nextFree x
  let p := getItem m .prevFree x
  have hxin : x ∈ fh :: (us ++ x :: vs) := by simp
  have hyin : y ∈ fh :: (us ++ x :: vs) := hr.next_mem hxin
  have hpin : p ∈ fh :: (us ++ x :: vs) := hr.prev_mem hxin
  have hyx : y ≠ x := hr.next_ne
  let m1 := setItem m .prevFree y p
  have hread1 : getItem m1 .nextFree x = y := getItem_setItem_field (hp y hyin x hxin) (by decide)
  have hread2 : getItem m1 .prevFree x = p := getItem_setItem_item (hp y hyin x hxin) hyx
  have hall : removeFree m x = setItem m1 .nextFree p y := by
    unfold removeFree
    simp only
    show setItem m1 .nextFree (getItem m1 .prevFree x) (getItem m1 .nextFree x) = _
    rw [hread1, hread2]
  have hylt : y < 4294967296 := getItem_lt m .nextFree x
  have hplt : p < 4294967296 := getItem_lt m .prevFree x
  have hsub : ∀ c ∈ fh :: (us ++ vs), c ∈ fh :: (us ++ x :: vs) := by
    intro c hc
    simp only [List.mem_cons, List.mem_append] at hc ⊢
    tauto
  rw [hall]
  refine ⟨hr.remove ?_ ?_ (fun c hc hcp => ?_) fun c hc hcy => ?_, fun c hc => ?_⟩
  · exact getItem_setItem_self hylt
  · exact (getItem_setItem_field (hp p hpin y hyin) (by decide)).trans (getItem_setItem_self hplt)
  · exact (getItem_setItem_item (hp p hpin c (hsub c hc)) (Ne.symm hcp)).trans
      (getItem_setItem_field (hp y hyin c (hsub c hc)) (by decide))
  · exact (getItem_setItem_field (hp p hpin c (hsub c hc)) (by decide)).trans
      (getItem_setItem_item (hp y hyin c (hsub c hc)) (Ne.symm hcy))
  · exact (sameLinks_free (hc y hyin) (Or.inr rfl)).trans (sameLinks_free (hc p hpin) (Or.inl rfl))

theorem insertFree_spec {fh : Nat} {fs : List Nat} (hr : FreeRing m fh fs)
    (hp : AllPlaced (fh :: x :: fs)) (hx : x ∉ fh :: fs) (hxlt : x < 4294967296)
    (hlt : fh < 4294967296) :
    FreeRing (insertFree m fh x) fh (x :: fs) ∧
    ∀ c, (∀ y ∈ fh :: x :: fs, Beside y c) → SameLinks m (insertFree m fh x) c := by
  let y := getItem m .nextFree fh
  have hyin : y ∈ fh :: fs := hr.next_mem List.mem_cons_self
  have hsub : ∀ c ∈ fh :: fs, c ∈ fh :: x :: fs := by
    intro c hc
    simp only [List.mem_cons] at hc ⊢
    tauto
  have hxin : x ∈ fh :: x :: fs := by simp
  have hfin : fh ∈ fh :: x :: fs := List.mem_cons_self
  have hxf : x ≠ fh := fun he => hx (he ▸ List.mem_cons_self)
  have hxy : y ≠ x := fun he => hx (he ▸ hyin)
  have hylt : y < 4294967296 := getItem_lt m .nextFree fh
  let m1 := setItem m .nextFree x y
  let m2 := setItem m1 .prevFree x fh
  let m3 := setItem m2 .prevFree y x
  have hread : getItem m2 .nextFree fh = y :=
    (getItem_setItem_field (hp x hxin fh hfin) (by decide)).trans
      (getItem_setItem_item (hp x hxin fh hfin) hxf)
  have hall : insertFree m fh x = setItem m3 .nextFree fh x := by
    unfold insertFree
    simp only
    show setItem (setItem m2 .prevFree (getItem m2 .nextFree fh) x) .nextFree fh x = _
    rw [hread]
  rw [hall]
  have hkept : ∀ c ∈ fh :: fs, x ≠ c := fun c hc he => hx (he ▸ hc)
  refine ⟨hr.insert hx ?_ ?_ ?_ ?_ (fun c hc => ?_) fun c hc hcy => ?_, fun c hc => ?_⟩
  · exact getItem_setItem_self hxlt
  · exact (getItem_setItem_item (hp fh hfin x hxin) (Ne.symm hxf)).trans
      ((getItem_setItem_field (hp y (hsub y hyin) x hxin) (by decide)).trans
        ((getItem_setItem_field (Or.inl rfl) (by decide)).trans (getItem_setItem_self hylt)))
  · exact (getItem_setItem_field (hp fh hfin x hxin) (by decide)).trans
      ((getItem_setItem_item (hp y (hsub y hyin) x hxin) hxy).trans (getItem_setItem_self hlt))
  · exact (getItem_setItem_field (hp fh hfin y (hsub y hyin)) (by decide)).trans
      (getItem_setItem_self hxlt)
  · have hcin := hsub c (List.mem_cons_of_mem fh hc)
    have hfc : fh ≠ c := fun he => (List.nodup_cons.mp hr.nodup).1 (he ▸ hc)
    exact (getItem_setItem_item (hp fh hfin c hcin) hfc).trans
      ((getItem_setItem_field (hp y (hsub y hyin) c hcin) (by decide)).trans
        ((getItem_setItem_field (hp x hxin c hcin) (by decide)).trans
          (getItem_setItem_item (hp x hxin c hcin) (hkept c (List.mem_cons_of_mem fh hc)))))
  · have hcin := hsub c hc
    exact (getItem_setItem_field (hp fh hfin c hcin) (by decide)).trans
      ((getItem_setItem_item (hp y (hsub y hyin) c hcin) (Ne.symm hcy)).trans
        ((getItem_setItem_item (hp x hxin c hcin) (hkept c hc)).trans
          (getItem_setItem_field (hp x hxin c hcin) (by decide))))
  · exact (((sameLinks_free (hc x hxin) (Or.inl rfl)).trans
      (sameLinks_free (hc x hxin) (Or.inr rfl))).trans
      (sameLinks_free (hc y (hsub y hyin)) (Or.inr rfl))).trans
      (sameLinks_free (hc fh hfin) (Or.inl rfl))

end

end RTThread
