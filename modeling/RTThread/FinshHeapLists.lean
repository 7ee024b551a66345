import RTThread.FinshBlocks

namespace RTThread

/-- A set of places of headers: no two of them overlap and none is the null pointer. -/
structure Headers (hs : Nat → Prop) : Prop where
  sep : ∀ x y, hs x → hs y → Sep x y
  pos : ∀ x, hs x → x ≠ 0
  lt : ∀ x, hs x → x < 4294967296

/-- From `m` to `m'` no length changes, and no pointer but those in `changed`. -/
def KeepsHeaders (hs : Nat → Prop) (changed : List Nat) (m m' : Memory) : Prop :=
  ∀ x, hs x → blockLength m' x = blockLength m x ∧
    (x ∉ changed → blockNext m' x = blockNext m x)

section
variable {hs : Nat → Prop} {m m' m'' : Memory} {list h p y v : Nat} {as bs ns xs ys : List Nat}

theorem KeepsHeaders.trans (h1 : KeepsHeaders hs xs m m') (h2 : KeepsHeaders hs ys m' m'') :
    KeepsHeaders hs (xs ++ ys) m m'' := by
  intro x hx
  refine ⟨(h2 x hx).1.trans (h1 x hx).1, fun hxs => ?_⟩
  obtain ⟨hx1, hx2⟩ := not_or.mp (List.mem_append.not.mp hxs)
  exact ((h2 x hx).2 hx2).trans ((h1 x hx).2 hx1)

theorem KeepsHeaders.mono (hk : KeepsHeaders hs xs m m') (hsub : ∀ x ∈ xs, x ∈ ys) :
    KeepsHeaders hs ys m m' := fun x hx =>
  ⟨(hk x hx).1, fun hn => (hk x hx).2 fun hxs => hn (hsub x hxs)⟩

theorem KeepsHeaders.nodeList (hk : KeepsHeaders hs xs m m') (hns : ∀ x ∈ ns, hs x)
    (hdisj : ∀ x ∈ ns, x ∉ xs) (hl : NodeList (blockNext m) 0 p ns) :
    NodeList (blockNext m') 0 p ns :=
  hl.congr fun n hn => (hk n (hns n hn)).2 (hdisj n hn)

theorem Headers.set (H : Headers hs) (hy : hs y) :
    KeepsHeaders hs [y] m (setBlockNext m y v) := by
  intro x hx
  refine ⟨blockLength_setBlockNext (H.sep x y hx hy), fun hne => ?_⟩
  rw [blockNext_setBlockNext (H.sep x y hx hy), if_neg (by simpa using hne)]

theorem Headers.nodeList_set (H : Headers hs) (hy : hs y) (hv : v < 4294967296)
    (hns : ∀ x ∈ ns, hs x) (hl : NodeList (Function.update (blockNext m) y v) 0 p ns) :
    NodeList (blockNext (setBlockNext m y v)) 0 p ns := by
  apply hl.congr
  intro n hn
  rw [blockNext_setBlockNext (H.sep n y (hns n hn) hy), word_of_lt hv]
  by_cases hny : n = y
  · subst hny
    simp
  · rw [if_neg hny, Function.update_of_ne hny]

/-- A new block is linked where the addresses rise, behind `as`. Behind the last block of a
list it must already point to null. -/
theorem finshBlockInsert_spec (H : Headers hs) (hl : NodeList (blockNext m) 0 list (as ++ bs))
    (hmem : ∀ x ∈ as ++ bs, hs x) (hh : hs h) (has : ∀ x ∈ as, x < h) (hbs : ∀ x ∈ bs, h < x)
    (hend : bs ≠ [] ∨ blockNext m h = 0) (hlen : (as ++ bs).length < walkTurns) :
    ∃ list' m', finshBlockInsert m list h = some (list', m') ∧
      NodeList (blockNext m') 0 list' (as ++ h :: bs) ∧ KeepsHeaders hs (as ++ [h]) m m' := by
  have hnot : h ∉ as ++ bs := by
    intro hin
    rcases List.mem_append.mp hin with hin | hin
    · exact lt_irrefl h (has h hin)
    · exact lt_irrefl h (hbs h hin)
  have hh0 := H.pos h hh
  have hnext : bs.headD 0 = 0 ∨ h < bs.headD 0 := by
    cases bs with
    | nil => exact Or.inl rfl
    | cons b bs => exact Or.inr (hbs b List.mem_cons_self)
  unfold finshBlockInsert
  rcases List.eq_nil_or_concat as with rfl | ⟨as, b, rfl⟩
  · cases bs with
    | nil =>
      obtain rfl := nodeList_nil.mp hl
      have hnull : blockNext m h = 0 := hend.resolve_left fun hne => hne rfl
      refine ⟨h, m, by simp, nodeList_cons.mpr ⟨rfl, hh0, nodeList_nil.mpr hnull⟩, ?_⟩
      exact fun x _ => ⟨rfl, fun _ => rfl⟩
    | cons b bs =>
      obtain ⟨rfl, hb0, -⟩ := nodeList_cons.mp hl
      have hlt : h < list := hbs list List.mem_cons_self
      rw [if_neg hb0, if_pos hlt]
      have hin : ∀ x ∈ h :: list :: bs, hs x := by
        intro x hx
        rcases List.mem_cons.mp hx with rfl | hx
        · exact hh
        · exact hmem x hx
      have hll := hl.push hh0 hnot
      exact ⟨h, _, rfl, H.nodeList_set hh (H.lt list (hmem list (by simp))) hin hll, H.set hh⟩
  · have hb : hs b := hmem b (by simp)
    have hl' : NodeList (blockNext m) 0 list (as ++ b :: bs) := by simpa using hl
    have hnextb := hl'.next_eq
    have hb0 := H.pos b hb
    have hlist : list ≠ 0 ∧ ¬list > h := by
      obtain ⟨hseg, -⟩ := hl'
      cases as with
      | nil =>
        obtain rfl : list = b := hseg.1
        have := has list (by simp)
        exact ⟨hb0, by omega⟩
      | cons a as =>
        obtain rfl : list = a := hseg.1
        have := has list (by simp)
        exact ⟨H.pos list (hmem list (by simp)), by omega⟩
    rw [if_neg hlist.1, if_neg hlist.2]
    have hfind : (as ++ b :: bs).find? (fun node => blockNext m node > h ∨ blockNext m node = 0)
        = some b := by
      refine List.find?_eq_some_iff_append.mpr ⟨?_, as, bs, rfl, fun a ha => ?_⟩
      · rw [hnextb]
        simpa [or_comm] using hnext
      · have hmema : blockNext m a ∈ as ∨ blockNext m a = b := hl'.next_mem ha
        have hlt : blockNext m a < h ∧ blockNext m a ≠ 0 := by
          rcases hmema with hin | heq
          · exact ⟨has _ (by simp [hin]), H.pos _ (hmem _ (by simp [hin]))⟩
          · rw [heq]
            exact ⟨has b (by simp), hb0⟩
        have : ¬blockNext m a > h := by omega
        simp [hlt.2, this]
    have hwalk : walkBlocks m (fun node => blockNext m node > h ∨ blockNext m node = 0) list
        = some b := by
      unfold walkBlocks
      rw [hl'.scan_eq (by simpa using hlen), hfind]
      rfl
    rw [hwalk]
    simp only [Option.bind_eq_bind, Option.bind_some]
    have hin : ∀ x ∈ as ++ b :: bs, hs x := fun x hx => hmem x (by simpa using hx)
    have hin' : ∀ x ∈ as ++ b :: h :: bs, hs x := by
      intro x hx
      rcases eq_or_ne x h with rfl | hne
      · exact hh
      · exact hin x (by simpa [hne] using hx)
    -- the pointer of the new block is now the rest of the list
    obtain ⟨m1, hm1, hk1, hh1⟩ : ∃ m1, (if blockNext m b ≠ 0 then setBlockNext m h (blockNext m b)
        else m) = m1 ∧ KeepsHeaders hs [h] m m1 ∧ blockNext m1 h = bs.headD 0 := by
      split
      next hne =>
        refine ⟨_, rfl, H.set hh, ?_⟩
        rw [blockNext_setBlockNext (Or.inl rfl), if_pos rfl, word_of_lt (blockNext_lt _ _), hnextb]
      next heq =>
        refine ⟨m, rfl, fun x _ => ⟨rfl, fun _ => rfl⟩, ?_⟩
        have hz : bs.headD 0 = 0 := by
          rw [← hnextb]
          exact not_not.mp heq
        have hnil : bs = [] := by
          cases bs with
          | nil => rfl
          | cons c bs => exact absurd hz (H.pos c (hmem c (by simp)))
        rw [hz]
        exact hend.resolve_left fun hne => hne hnil
    rw [hm1]
    have hnot' : h ∉ as ++ b :: bs := by simpa using hnot
    have hl1 : NodeList (blockNext m1) 0 list (as ++ b :: bs) :=
      hk1.nodeList hin (fun x hx hxh => hnot' (List.mem_singleton.mp hxh ▸ hx)) hl'
    have hl2 := hl1.insert hh0 hnot' hh1
    refine ⟨list, _, rfl, ?_, (hk1.trans (H.set hb)).mono fun x hx => ?_⟩
    · have := H.nodeList_set hb (H.lt h hh) hin' hl2
      simpa using this
    · simp only [List.concat_eq_append, List.mem_append, List.mem_singleton] at hx ⊢
      tauto

theorem finshBlockRemove_spec (H : Headers hs)
    (hl : NodeList (blockNext m) 0 list (as ++ h :: bs)) (hmem : ∀ x ∈ as ++ h :: bs, hs x)
    (hlen : (as ++ h :: bs).length < walkTurns) :
    ∃ list' m', finshBlockRemove m list h = some (list', m') ∧
      NodeList (blockNext m') 0 list' (as ++ bs) ∧ KeepsHeaders hs (as ++ [h]) m m' := by
  have hh : hs h := hmem h (by simp)
  have hnodup := hl.nodup
  unfold finshBlockRemove
  rcases List.eq_nil_or_concat as with rfl | ⟨as, b, rfl⟩
  · obtain ⟨rfl, -, hbs⟩ := nodeList_cons.mp hl
    rw [if_pos rfl]
    have hnot : list ∉ bs := (List.nodup_cons.mp hnodup).1
    refine ⟨_, _, rfl, ?_, H.set hh⟩
    refine (H.set hh).nodeList (fun x hx => hmem x (List.mem_cons_of_mem list hx)) (fun x hx hxl => ?_) hbs
    exact hnot (List.mem_singleton.mp hxl ▸ hx)
  · have hl' : NodeList (blockNext m) 0 list (as ++ b :: h :: bs) := by simpa using hl
    have hb : hs b := hmem b (by simp)
    have hin : ∀ x ∈ as ++ b :: h :: bs, hs x := fun x hx => hmem x (by simpa using hx)
    have hnodup' := hl'.nodup
    have hdisj := (List.nodup_append.mp hnodup').2.2
    have hbh : b ≠ h := by
      have hcons := (List.nodup_append.mp hnodup').2.1
      intro heq
      exact (List.nodup_cons.mp hcons).1 (heq ▸ List.mem_cons_self)
    have hlist : list ≠ h := by
      obtain ⟨hseg, -⟩ := hl'
      cases as with
      | nil => exact fun heq => hbh (hseg.1 ▸ heq)
      | cons a as => exact fun heq => hdisj a List.mem_cons_self h (by simp) (hseg.1 ▸ heq)
    rw [if_neg hlist]
    have hfind : (as ++ b :: h :: bs).find? (fun node => blockNext m node = h) = some b := by
      refine List.find?_eq_some_iff_append.mpr ⟨by simpa using hl'.next_eq, as, h :: bs, rfl,
        fun a ha => ?_⟩
      have hne : blockNext m a ≠ h := by
        rcases hl'.next_mem ha with hmema | heq
        · exact hdisj _ hmema h (by simp)
        · exact heq ▸ hbh
      simp [hne]
    have hwalk : walkBlocks m (fun node => blockNext m node = h) list = some b := by
      unfold walkBlocks
      rw [hl'.scan_eq (by simpa using hlen), hfind]
      rfl
    rw [hwalk]
    simp only [Option.bind_eq_bind, Option.bind_some, if_pos (H.pos b hb)]
    have hl2 := hl'.unlink
    refine ⟨list, _, rfl, ?_, (H.set hb).mono fun x hx => by simp at hx ⊢; tauto⟩
    have hin' : ∀ x ∈ as ++ b :: bs, hs x := fun x hx => hin x (by simp at hx ⊢; tauto)
    have := H.nodeList_set hb (blockNext_lt m h) hin' hl2
    simpa using this

end

end RTThread
