import RTThread.RecentList
import RTThread.Runs

namespace RTThread

/-- `struct rt_wlan_ssid` and `struct rt_wlan_key`, which have the same fields. The management
layer keeps `len` at most 32. -/
structure WlanText where
  len : UInt8
  val : Vector UInt8 33
deriving DecidableEq, Inhabited

structure WlanInfo where
  security : UInt32
  band : UInt32
  datarate : UInt32
  channel : Int16
  rssi : Int16
  ssid : WlanText
  bssid : Vector UInt8 6
  hidden : UInt8
deriving DecidableEq, Inhabited

structure WlanCfgInfo where
  info : WlanInfo
  key : WlanText
deriving DecidableEq, Inhabited

/-- `rt_memcmp` of the first `n` bytes is 0. -/
def bytesEqual {m : Nat} (a b : Vector UInt8 m) (n : UInt8) : Bool :=
  a.toList.take n.toNat = b.toList.take n.toNat

def sameStation (a b : WlanCfgInfo) : Bool :=
  a.info.ssid.len = b.info.ssid.len && bytesEqual a.info.ssid.val b.info.ssid.val a.info.ssid.len &&
    bytesEqual a.info.bssid b.info.bssid 6

def sameKey (a b : WlanCfgInfo) : Bool :=
  a.key.len = b.key.len && bytesEqual a.key.val b.key.val b.key.len

/-- `struct rt_wlan_cfg_des` with the array that `cfg_info` points to. -/
structure WlanCfgCache where
  num : Nat
  cfgInfo : Nat → WlanCfgInfo

def emptyCache : WlanCfgCache := ⟨0, fun _ => default⟩

def WlanCfgCache.contents (cache : WlanCfgCache) : List WlanCfgInfo :=
  (List.range cache.num).map cache.cfgInfo

inductive WlanCode where
  | eok
  | error
  | einval
deriving DecidableEq, Repr

/-- The loop over the entries; `none` when it runs through. -/
def findStation (cache : WlanCfgCache) (c : WlanCfgInfo) : Option Nat :=
  (List.range cache.num).find? fun i => sameStation (cache.cfgInfo i) c

def moveInfo : Nat → (Nat → WlanCfgInfo) → Nat → WlanCfgInfo
  | 0, cfgInfo => cfgInfo
  | i + 1, cfgInfo => moveInfo i (Function.update cfgInfo (i + 1) (cfgInfo i))

/-- `RT_WLAN_CFG_INFO_MAX` is `max`; `stored` is whether there are no operations or `write_cfg`
takes the whole package. -/
def rtWlanCfgSave (max : Nat) (cache : WlanCfgCache) (cfgInfo : Option WlanCfgInfo)
    (stored : Bool) : WlanCode × WlanCfgCache :=
  match cfgInfo with
  | none => (.einval, cache)
  | some c =>
    if c.info.ssid.len = 0 then (.einval, cache)
    else
      let idx := findStation cache c
      let i := idx.getD cache.num
      if idx = some 0 ∧ sameKey (cache.cfgInfo i) c then (.eok, cache)
      else
        let num := if idx = none ∧ cache.num < max then cache.num + 1 else cache.num
        let i := if max ≤ i then max - 1 else i
        (if stored then .eok else .error, ⟨num, Function.update (moveInfo i cache.cfgInfo) 0 c⟩)

/-- The loop of `rt_wlan_cfg_delete_index` after its first `n` rounds. -/
def copyInfo (cfgInfo : Nat → WlanCfgInfo) (index : Nat) : Nat → Nat → WlanCfgInfo
  | 0 => fun _ => default
  | i + 1 =>
    if i < index then Function.update (copyInfo cfgInfo index i) i (cfgInfo i)
    else if index < i then Function.update (copyInfo cfgInfo index i) (i - 1) (cfgInfo i)
    else copyInfo cfgInfo index i

def rtWlanCfgDeleteIndex (cache : WlanCfgCache) (index : Int) : Int × WlanCfgCache :=
  if index < 0 then (-1, cache)
  else if cache.num ≤ index.toNat then (-1, cache)
  -- `rt_malloc` of 0 bytes gives a null pointer
  else if cache.num - 1 = 0 then (-1, cache)
  else (0, ⟨cache.num - 1, copyInfo cache.cfgInfo index.toNat cache.num⟩)

def rtWlanCfgDeleteAll (cache : WlanCfgCache) : WlanCfgCache := { cache with num := 0 }

/-- The number copied, the caller's array and the cache. The copy goes into the cache. -/
def rtWlanCfgRead (cache : WlanCfgCache) (cfgInfo : Option (Nat → WlanCfgInfo)) (num : Int) :
    Int × Option (Nat → WlanCfgInfo) × WlanCfgCache :=
  match cfgInfo with
  | none => (0, none, cache)
  | some buf =>
    if num ≤ 0 then (0, some buf, cache)
    else
      let num := if num.toNat < cache.num then num.toNat else cache.num
      (num, some buf, { cache with cfgInfo := fun i => if i < num then buf i else cache.cfgInfo i })

def rtWlanCfgReadIndex (cache : WlanCfgCache) (cfgInfo : Option WlanCfgInfo) (index : Int) :
    Int × Option WlanCfgInfo :=
  match cfgInfo with
  | none => (0, none)
  | some c =>
    if index < 0 then (0, some c)
    else if cache.num ≤ index.toNat then (0, some c)
    else (1, some (cache.cfgInfo index.toNat))

inductive WlanCall where
  | save (cfgInfo : Option WlanCfgInfo) (stored : Bool)
  | deleteIndex (index : Int)
  | deleteAll
  | read (cfgInfo : Option (Nat → WlanCfgInfo)) (num : Int)
  | readIndex (cfgInfo : Option WlanCfgInfo) (index : Int)
  | getNum

/-- What a call returns, with what it leaves in the caller's memory. -/
inductive WlanAnswer where
  | code (err : WlanCode)
  | number (n : Int)
  | filled (n : Int) (cfgInfo : Option (Nat → WlanCfgInfo))
  | entry (n : Int) (cfgInfo : Option WlanCfgInfo)
  | done

def wlanCall (max : Nat) (cache : WlanCfgCache) : WlanCall → WlanAnswer × WlanCfgCache
  | .save c stored =>
    let (err, cache) := rtWlanCfgSave max cache c stored
    (.code err, cache)
  | .deleteIndex index =>
    let (n, cache) := rtWlanCfgDeleteIndex cache index
    (.number n, cache)
  | .deleteAll => (.done, rtWlanCfgDeleteAll cache)
  | .read buf num =>
    let (n, buf, cache) := rtWlanCfgRead cache buf num
    (.filled n buf, cache)
  | .readIndex c index =>
    let (n, c) := rtWlanCfgReadIndex cache c index
    (.entry n c, cache)
  | .getNum => (.number cache.num, cache)

/-- What tells configurations apart: the name of the network and the address of the station. -/
def stationKey (c : WlanCfgInfo) : UInt8 × List UInt8 × Vector UInt8 6 :=
  (c.info.ssid.len, c.info.ssid.val.toList.take c.info.ssid.len.toNat, c.info.bssid)

/-- The calls on a list of the configurations saved, the latest first. -/
def recentCall (max : Nat) (l : List WlanCfgInfo) : WlanCall → WlanAnswer × List WlanCfgInfo
  | .save none _ => (.code .einval, l)
  | .save (some c) stored =>
    if c.info.ssid.len = 0 then (.code .einval, l)
    else (.code (if l.head? = some c ∨ stored then .eok else .error), recent stationKey max c l)
  | .deleteIndex index =>
    if 0 ≤ index ∧ index < l.length then (.number 0, l.eraseIdx index.toNat) else (.number (-1), l)
  | .deleteAll => (.done, [])
  | .read none _ => (.filled 0 none, l)
  | .read (some buf) num =>
    let n := min num.toNat l.length
    (.filled n (some fun i => ((l.take n)[i]?).getD (buf i)), l)
  | .readIndex none _ => (.entry 0 none, l)
  | .readIndex (some c) index =>
    if 0 ≤ index ∧ index < l.length then (.entry 1 (l[index.toNat]?), l)
    else (.entry 0 (some c), l)
  | .getNum => (.number l.length, l)

/-- Where the calls do what the list does: a save does not meet an entry at the head that has the
same network, station and key and differs in another field; the entry deleted is not the only one;
and a read finds in the caller's array what it should write there. -/
def KeepsRecent (cache : WlanCfgCache) : WlanCall → Prop
  | .save (some c) _ =>
    c.info.ssid.len = 0 ∨ cache.num = 0 ∨ ¬sameStation (cache.cfgInfo 0) c ∨
      ¬sameKey (cache.cfgInfo 0) c ∨ cache.cfgInfo 0 = c
  | .deleteIndex index => ¬(index = 0 ∧ cache.num = 1)
  | .read (some buf) num => ∀ i < min num.toNat cache.num, buf i = cache.cfgInfo i
  | _ => True

instance decidableKeepsRecent : ∀ cache call, Decidable (KeepsRecent cache call)
  | _, .save (some _) _ => inferInstanceAs (Decidable (_ ∨ _ ∨ _ ∨ _ ∨ _))
  | _, .save none _ => isTrue trivial
  | _, .deleteIndex _ => inferInstanceAs (Decidable (¬_))
  | _, .deleteAll => isTrue trivial
  | cache, .read (some buf) num =>
    inferInstanceAs (Decidable (∀ i < min num.toNat cache.num, buf i = cache.cfgInfo i))
  | _, .read none _ => isTrue trivial
  | _, .readIndex _ _ => isTrue trivial
  | _, .getNum => isTrue trivial

/-- At each point of the run the calls have answered as the list does and the cache is the list. -/
def WlanListRight (max : Nat) (calls : List WlanCall) : Prop :=
  ∀ n, (runAnswers (wlanCall max) emptyCache (calls.take n)).1 =
      (runAnswers (recentCall max) [] (calls.take n)).1 ∧
    (runAnswers (wlanCall max) emptyCache (calls.take n)).2.contents =
      (runAnswers (recentCall max) [] (calls.take n)).2

section
variable {max i n : Nat} {cache : WlanCfgCache} {c : WlanCfgInfo} {cfgInfo : Nat → WlanCfgInfo}

theorem bytesEqual_all {m : Nat} {a b : Vector UInt8 m} {k : UInt8} (hm : m ≤ k.toNat) :
    bytesEqual a b k = true ↔ a = b := by
  unfold bytesEqual
  rw [List.take_of_length_le (by simpa using hm), List.take_of_length_le (by simpa using hm)]
  simp [Vector.toList_inj]

theorem sameStation_iff {a b : WlanCfgInfo} :
    sameStation a b = true ↔ stationKey a = stationKey b := by
  unfold sameStation stationKey
  rw [Bool.and_eq_true, bytesEqual_all (by decide), Bool.and_eq_true, decide_eq_true_eq,
    Prod.mk.injEq, Prod.mk.injEq]
  constructor
  · rintro ⟨⟨hlen, hval⟩, hbssid⟩
    refine ⟨hlen, ?_, hbssid⟩
    rw [← hlen]
    exact of_decide_eq_true hval
  · rintro ⟨hlen, hval, hbssid⟩
    rw [← hlen] at hval
    exact ⟨⟨hlen, decide_eq_true hval⟩, hbssid⟩

theorem sameKey_refl : sameKey c c = true := by simp [sameKey, bytesEqual]

@[simp] theorem cacheContents_length : cache.contents.length = cache.num := by
  simp [WlanCfgCache.contents]

theorem contents_get (h : i < cache.num) : cache.contents[i]? = some (cache.cfgInfo i) := by
  simp [WlanCfgCache.contents, h]

theorem contents_getElem (h : i < cache.contents.length) :
    cache.contents[i] = cache.cfgInfo i := by
  simp [WlanCfgCache.contents]

theorem contents_head :
    cache.contents.head? = if cache.num = 0 then none else some (cache.cfgInfo 0) := by
  rw [List.head?_eq_getElem?]
  split
  next h => simp [WlanCfgCache.contents, h]
  next h => exact contents_get (by omega)

theorem moveInfo_apply {k : Nat} :
    moveInfo i cfgInfo k = if 0 < k ∧ k ≤ i then cfgInfo (k - 1) else cfgInfo k := by
  induction i generalizing cfgInfo with
  | zero => rw [moveInfo, if_neg (by omega)]
  | succ i ih =>
    rw [moveInfo, ih]
    by_cases hk : k = i + 1
    · subst hk
      rw [if_neg (by omega), if_pos (by omega), Function.update_self, Nat.add_sub_cancel]
    · by_cases hle : 0 < k ∧ k ≤ i
      · rw [if_pos hle, if_pos (by omega), Function.update_of_ne (by omega)]
      · rw [if_neg hle, if_neg (by omega), Function.update_of_ne hk]

/-- Moving the entries before place `i` and writing the first drops what was at that place. -/
theorem contents_moved (hi : i < n) :
    (⟨n, Function.update (moveInfo i cfgInfo) 0 c⟩ : WlanCfgCache).contents =
      c :: (WlanCfgCache.contents ⟨n, cfgInfo⟩).eraseIdx i := by
  apply List.ext_getElem?
  intro k
  cases k with
  | zero => exact contents_get (by exact Nat.zero_lt_of_lt hi)
  | succ k =>
    rw [List.getElem?_cons_succ, List.getElem?_eraseIdx]
    by_cases hk : k + 1 < n
    · rw [contents_get hk]
      simp only [Function.update_of_ne (Nat.succ_ne_zero k), moveInfo_apply]
      by_cases hki : k < i
      · rw [if_pos (by omega), if_pos hki, contents_get (by exact Nat.lt_trans hki hi)]
        rfl
      · rw [if_neg (by omega), if_neg hki, contents_get hk]
    · have hend : (⟨n, Function.update (moveInfo i cfgInfo) 0 c⟩ : WlanCfgCache).contents[k + 1]? =
          none := List.getElem?_eq_none (by simpa using hk)
      rw [hend, if_neg (by omega)]
      exact (List.getElem?_eq_none (by simpa using hk)).symm

theorem contents_grown : (WlanCfgCache.contents ⟨n + 1, cfgInfo⟩).eraseIdx n =
    WlanCfgCache.contents ⟨n, cfgInfo⟩ := by
  unfold WlanCfgCache.contents
  rw [List.range_succ, List.map_append, List.eraseIdx_append_of_length_le (by simp)]
  simp

theorem copyInfo_apply {k : Nat} (hk : k < i) (hne : k < n ∨ k + 1 < i) :
    copyInfo cfgInfo n i k = if k < n then cfgInfo k else cfgInfo (k + 1) := by
  induction i generalizing k with
  | zero => omega
  | succ i ih =>
    rw [copyInfo]
    by_cases hin : i < n
    · rw [if_pos hin, if_pos (by omega)]
      by_cases hki : k = i
      · rw [hki, Function.update_self]
      · rw [Function.update_of_ne hki, ih (by omega) (by omega), if_pos (by omega)]
    · rw [if_neg hin]
      by_cases hni : n < i
      · rw [if_pos hni]
        by_cases hki : k = i - 1
        · rw [hki, Function.update_self, if_neg (by omega), Nat.sub_add_cancel (by omega)]
        · rw [Function.update_of_ne hki]
          exact ih (by omega) (by omega)
      · rw [if_neg hni]
        exact ih (by omega) (by omega)

theorem contents_copied (hi : i < cache.num) :
    (⟨cache.num - 1, copyInfo cache.cfgInfo i cache.num⟩ : WlanCfgCache).contents =
      cache.contents.eraseIdx i := by
  apply List.ext_getElem?
  intro k
  rw [List.getElem?_eraseIdx]
  by_cases hk : k < cache.num - 1
  · rw [contents_get hk]
    simp only
    rw [copyInfo_apply (by omega) (by omega)]
    by_cases hki : k < i
    · rw [if_pos hki, if_pos hki, contents_get (by omega)]
    · rw [if_neg hki, if_neg hki, contents_get (by omega)]
  · rw [List.getElem?_eq_none (by simpa using hk), if_neg (by omega),
      List.getElem?_eq_none (by simp; omega)]

theorem findStation_some (h : findStation cache c = some i) :
    i < cache.num ∧ stationKey (cache.cfgInfo i) = stationKey c := by
  have hmem := List.mem_of_find?_eq_some h
  have hsame := List.find?_some h
  exact ⟨List.mem_range.mp hmem, sameStation_iff.mp hsame⟩

theorem findStation_none (h : findStation cache c = none) :
    ∀ x ∈ cache.contents, stationKey x ≠ stationKey c := by
  intro x hx
  obtain ⟨k, hk, rfl⟩ := List.mem_map.mp hx
  intro heq
  have hno := List.find?_eq_none.mp h k hk
  exact hno (sameStation_iff.mpr heq)

/-- The loop finds the first entry whenever that is the station. -/
theorem findStation_zero : findStation cache c = some 0 ↔
    cache.num ≠ 0 ∧ sameStation (cache.cfgInfo 0) c = true := by
  constructor
  · intro h
    obtain ⟨hlt, hsame⟩ := findStation_some h
    exact ⟨by omega, sameStation_iff.mpr hsame⟩
  · rintro ⟨hnum, hsame⟩
    obtain ⟨m, hm⟩ := Nat.exists_eq_succ_of_ne_zero hnum
    rw [findStation, hm, List.range_succ_eq_map, List.find?_cons]
    simp only [hsame]

/-- The list is within its bound and tells its stations apart. -/
structure CacheRight (max : Nat) (cache : WlanCfgCache) : Prop where
  bound : cache.num ≤ max
  keys : KeysDiffer stationKey cache.contents

theorem cacheRight_empty : CacheRight max emptyCache :=
  ⟨Nat.zero_le _, List.Pairwise.nil⟩

/-- The calls of the list keep what the cache relies on. -/
theorem recentCall_right {l : List WlanCfgInfo} (hl : l.length ≤ max)
    (hkeys : KeysDiffer stationKey l) (call : WlanCall) : (recentCall max l call).2.length ≤ max ∧
      KeysDiffer stationKey (recentCall max l call).2 := by
  cases call with
  | save c stored =>
    cases c with
    | none => exact ⟨hl, hkeys⟩
    | some c =>
      simp only [recentCall]
      split
      · exact ⟨hl, hkeys⟩
      · exact ⟨recent_length, keysDiffer_recent hkeys⟩
  | deleteIndex index =>
    simp only [recentCall]
    split
    · exact ⟨(List.length_eraseIdx_le l _).trans hl, keysDiffer_eraseIdx hkeys _⟩
    · exact ⟨hl, hkeys⟩
  | deleteAll => exact ⟨Nat.zero_le _, List.Pairwise.nil⟩
  | read buf num => cases buf <;> exact ⟨hl, hkeys⟩
  | readIndex c index =>
    cases c with
    | none => exact ⟨hl, hkeys⟩
    | some c =>
      simp only [recentCall]
      split <;> exact ⟨hl, hkeys⟩
  | getNum => exact ⟨hl, hkeys⟩

/-- A save that gets past the early exit makes its configuration the latest. -/
theorem save_recent (h : CacheRight max cache) (hmax : 0 < max) :
    (⟨if findStation cache c = none ∧ cache.num < max then cache.num + 1 else cache.num,
      Function.update (moveInfo (if max ≤ (findStation cache c).getD cache.num then max - 1
        else (findStation cache c).getD cache.num) cache.cfgInfo) 0 c⟩ : WlanCfgCache).contents =
      recent stationKey max c cache.contents := by
  have hbound := h.bound
  cases hfind : findStation cache c with
  | some i =>
    obtain ⟨hi, hkey⟩ := findStation_some hfind
    have hlen : i < cache.contents.length := by simpa using hi
    rw [if_neg (by simp), Option.getD_some, if_neg (by omega), contents_moved hi]
    rw [recent_of_found h.keys (by simpa using hbound) hlen (by rwa [contents_getElem])]
  | none =>
    have hnew := findStation_none hfind
    by_cases hfull : cache.num < max
    · rw [if_pos ⟨rfl, hfull⟩, Option.getD_none, if_neg (by omega),
        contents_moved (Nat.lt_succ_self _), contents_grown]
      exact (recent_of_new hnew (by simpa using hfull)).symm
    · rw [if_neg (by simp [hfull]), Option.getD_none, if_pos (by omega), contents_moved (by omega)]
      exact (recent_of_full hnew (by rw [cacheContents_length]; omega) hmax).symm

theorem save_right_iff (h : CacheRight max cache) (hmax : 0 < max) (stored : Bool) :
    ((wlanCall max cache (.save (some c) stored)).1 =
        (recentCall max cache.contents (.save (some c) stored)).1 ∧
      (wlanCall max cache (.save (some c) stored)).2.contents =
        (recentCall max cache.contents (.save (some c) stored)).2) ↔
      KeepsRecent cache (.save (some c) stored) := by
  simp only [wlanCall, recentCall, rtWlanCfgSave, KeepsRecent]
  by_cases hlen : c.info.ssid.len = 0
  · simp [hlen]
  rw [if_neg hlen, if_neg hlen]
  by_cases hexit : findStation cache c = some 0 ∧
      sameKey (cache.cfgInfo ((findStation cache c).getD cache.num)) c = true
  · -- the early exit is right for a configuration that is at the head already
    rw [if_pos hexit]
    obtain ⟨hfind, hkey⟩ := hexit
    rw [hfind, Option.getD_some] at hkey
    obtain ⟨hnum, hsame⟩ := findStation_zero.mp hfind
    have hhead : cache.contents.head? = some (cache.cfgInfo 0) := by rw [contents_head, if_neg hnum]
    constructor
    · rintro ⟨-, hcontents⟩
      simp only at hcontents
      rw [hcontents, recent_head hmax] at hhead
      exact .inr (.inr (.inr (.inr (Option.some.inj hhead).symm)))
    · intro hkeeps
      have hc : cache.cfgInfo 0 = c := by
        rcases hkeeps with hz | hz | hno | hno | hc
        · exact absurd hz hlen
        · exact absurd hz hnum
        · exact absurd hsame hno
        · exact absurd hkey hno
        · exact hc
      have hpos : 0 < cache.contents.length := by
        rw [cacheContents_length]
        omega
      rw [if_pos (Or.inl (hhead.trans (congrArg some hc)))]
      refine ⟨rfl, ?_⟩
      rw [recent_of_found h.keys (by simpa using h.bound) hpos (by rw [contents_getElem, hc])]
      obtain ⟨x, xs, hx⟩ := List.exists_cons_of_length_pos hpos
      rw [hx] at hhead ⊢
      rw [List.eraseIdx_cons_zero, ← hc]
      exact congrArg (· :: xs) (Option.some.inj hhead)
  · rw [if_neg hexit]
    have hnot : ¬cache.contents.head? = some c := by
      intro hhead
      rw [contents_head] at hhead
      split at hhead
      · simp at hhead
      next hnum =>
        have hc := Option.some.inj hhead
        have hfind : findStation cache c = some 0 :=
          findStation_zero.mpr ⟨hnum, sameStation_iff.mpr (congrArg stationKey hc)⟩
        apply hexit
        rw [hfind, Option.getD_some, hc]
        exact ⟨rfl, sameKey_refl⟩
    have hkeeps : cache.num = 0 ∨ ¬sameStation (cache.cfgInfo 0) c = true ∨
        ¬sameKey (cache.cfgInfo 0) c = true := by
      by_contra hall
      simp only [not_or, not_not] at hall
      obtain ⟨hnum, hsame, hkey⟩ := hall
      have hfind := findStation_zero.mpr ⟨hnum, hsame⟩
      exact hexit (by rw [hfind]; exact ⟨rfl, hkey⟩)
    constructor
    · intro _
      rcases hkeeps with hz | hz | hz
      · exact .inr (.inl hz)
      · exact .inr (.inr (.inl hz))
      · exact .inr (.inr (.inr (.inl hz)))
    · intro _
      refine ⟨?_, save_recent h hmax⟩
      simp [hnot]

theorem deleteIndex_right_iff (index : Int) :
    ((wlanCall max cache (.deleteIndex index)).1 =
        (recentCall max cache.contents (.deleteIndex index)).1 ∧
      (wlanCall max cache (.deleteIndex index)).2.contents =
        (recentCall max cache.contents (.deleteIndex index)).2) ↔
      KeepsRecent cache (.deleteIndex index) := by
  simp only [wlanCall, recentCall, rtWlanCfgDeleteIndex, KeepsRecent, cacheContents_length]
  by_cases hneg : index < 0
  · rw [if_pos hneg, if_neg (by omega)]
    simp only [true_and, true_iff]
    omega
  rw [if_neg hneg]
  by_cases hlt : cache.num ≤ index.toNat
  · rw [if_pos hlt, if_neg (by omega)]
    simp only [true_and, true_iff]
    omega
  rw [if_neg hlt, if_pos (by omega : 0 ≤ index ∧ index < cache.num)]
  by_cases hone : cache.num - 1 = 0
  · rw [if_pos hone]
    simp
    omega
  · rw [if_neg hone]
    simp only [contents_copied (Nat.lt_of_not_le hlt), true_and, true_iff]
    omega

theorem read_right_iff (buf : Nat → WlanCfgInfo) (num : Int) :
    ((wlanCall max cache (.read (some buf) num)).1 =
        (recentCall max cache.contents (.read (some buf) num)).1 ∧
      (wlanCall max cache (.read (some buf) num)).2.contents =
        (recentCall max cache.contents (.read (some buf) num)).2) ↔
      KeepsRecent cache (.read (some buf) num) := by
  simp only [wlanCall, recentCall, rtWlanCfgRead, KeepsRecent, cacheContents_length]
  by_cases hnum : num ≤ 0
  · rw [if_pos hnum]
    have hz : num.toNat = 0 := Int.toNat_of_nonpos hnum
    simp [hz]
  rw [if_neg hnum]
  have hmin : (if num.toNat < cache.num then num.toNat else cache.num) = min num.toNat cache.num := by
    split <;> omega
  simp only [hmin]
  constructor
  · rintro ⟨hanswer, -⟩ i hi
    have hbuf := congrFun (Option.some.inj (WlanAnswer.filled.inj hanswer).2) i
    rw [List.getElem?_take_of_lt hi, contents_get (by omega), Option.getD_some] at hbuf
    exact hbuf
  · intro hbuf
    constructor
    · congr 2
      funext i
      by_cases hi : i < min num.toNat cache.num
      · rw [List.getElem?_take_of_lt hi, contents_get (by omega), Option.getD_some, hbuf i hi]
      · rw [List.getElem?_eq_none (by simp; omega), Option.getD_none]
    · apply List.map_congr_left
      intro i hi
      simp only
      split
      next hlt => exact hbuf i hlt
      next => rfl

theorem wlanCall_right_iff (h : CacheRight max cache) (hmax : 0 < max) (call : WlanCall) :
    ((wlanCall max cache call).1 = (recentCall max cache.contents call).1 ∧
      (wlanCall max cache call).2.contents = (recentCall max cache.contents call).2) ↔
      KeepsRecent cache call := by
  cases call with
  | save c stored =>
    cases c with
    | none => simp [wlanCall, recentCall, rtWlanCfgSave, KeepsRecent]
    | some c => exact save_right_iff h hmax stored
  | deleteIndex index => exact deleteIndex_right_iff index
  | deleteAll => simp [wlanCall, recentCall, rtWlanCfgDeleteAll, KeepsRecent, WlanCfgCache.contents]
  | read buf num =>
    cases buf with
    | none => simp [wlanCall, recentCall, rtWlanCfgRead, KeepsRecent]
    | some buf => exact read_right_iff buf num
  | readIndex c index =>
    cases c with
    | none => simp [wlanCall, recentCall, rtWlanCfgReadIndex, KeepsRecent]
    | some c =>
      simp only [wlanCall, recentCall, rtWlanCfgReadIndex, KeepsRecent, cacheContents_length]
      by_cases hneg : index < 0
      · rw [if_pos hneg, if_neg (by omega)]
        simp
      by_cases hlt : cache.num ≤ index.toNat
      · rw [if_neg hneg, if_pos hlt, if_neg (by omega)]
        simp
      · rw [if_neg hneg, if_neg hlt, if_pos (by omega), contents_get (by omega)]
        simp
  | getNum => simp [wlanCall, recentCall, KeepsRecent]

/-- The cache is the list of what was saved last exactly in the runs whose calls meet the
condition. -/
theorem wlanRun_recent_iff {max : Nat} (hmax : 0 < max) (calls : List WlanCall) :
    WlanListRight max calls ↔
      RunMeets (fun cache call => some (wlanCall max cache call).2) KeepsRecent calls emptyCache := by
  have hempty : emptyCache.contents = [] := rfl
  unfold WlanListRight
  rw [← hempty, runAnswers_eq_iff]
  apply runMeets_congr (I := CacheRight max)
  · intro cache call _ hright
    exact wlanCall_right_iff hright hmax call
  · rintro cache call - _ hright ⟨-, hcontents⟩ hs
    obtain rfl := Option.some.inj hs
    obtain ⟨hlen, hkeys⟩ := recentCall_right (by simpa using hright.bound) hright.keys call
    rw [← hcontents] at hlen hkeys
    exact ⟨by simpa using hlen, hkeys⟩
  · exact cacheRight_empty

end

/-- An open network whose name is one letter, seen on a channel. -/
def openNetwork (letter : UInt8) (channel : Int16) : WlanCfgInfo :=
  { info := { (default : WlanInfo) with ssid := ⟨1, Vector.replicate 33 letter⟩, channel }
    key := default }

theorem wlanRun_recent_roaming :
    WlanListRight 2 [.save (openNetwork 97 1) true, .save (openNetwork 98 6) true,
      .save (openNetwork 97 1) false, .save (openNetwork 99 3) true, .deleteIndex 1,
      .read (some fun _ => openNetwork 99 3) 4, .deleteAll] :=
  (wlanRun_recent_iff (by decide) _).mpr (by decide +kernel)

/-- The only entry cannot be deleted, a read overwrites the cache, and a save for the station at
the head is dropped with its channel. -/
theorem wlanRun_not_recent :
    ¬WlanListRight 3 [.save (openNetwork 97 1) true, .deleteIndex 0] ∧
      ¬WlanListRight 3 [.save (openNetwork 97 1) true, .read (some fun _ => default) 1] ∧
      ¬WlanListRight 3 [.save (openNetwork 97 1) true, .save (openNetwork 97 6) true] := by
  refine ⟨fun h => ?_, fun h => ?_, fun h => ?_⟩
  · exact absurd (h 2).2 (by decide +kernel)
  · exact absurd (h 2).2 (by decide +kernel)
  · exact absurd (h 2).2 (by decide +kernel)

end RTThread
