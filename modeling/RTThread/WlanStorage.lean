import RTThread.ByteFields
import RTThread.ByteMemory
import RTThread.WlanCache

namespace RTThread

/-- `struct cfg_save_info_head`. -/
structure CfgSaveInfoHead where
  magic : Nat
  len : Nat
  num : Nat
  crc : Nat
deriving Inhabited

def rtWlanCfgMagic : Nat := 0x426f6d62

def sizeofHead : Nat := 16

def sizeofCfgInfo : Nat := 96

def crcShift (crc : BitVec 16) : BitVec 16 :=
  if crc &&& 0x8000 ≠ 0 then (crc <<< 1) ^^^ 0x1021 else crc <<< 1

def crcByte (crc : BitVec 16) (wChar : UInt8) : BitVec 16 :=
  crcShift^[8] (crc ^^^ (wChar.toBitVec.setWidth 16 <<< 8))

/-- `buff` is what can be read from the pointer on; `none` is a read past its end. -/
def rtWlanCalCrc : List UInt8 → Nat → BitVec 16 → Option (BitVec 16)
  | _, 0, crc => some crc
  | [], _ + 1, _ => none
  | wChar :: buff, len + 1, crc => rtWlanCalCrc buff len (crcByte crc wChar)

def textBytes (t : WlanText) : List UInt8 := leBytes 1 t.len.toNat ++ t.val.toList

def takeText (bytes : List UInt8) : Option (WlanText × List UInt8) := do
  let (len, bytes) ← takeNat 1 bytes
  let (val, bytes) ← takeVector 33 bytes
  return (⟨UInt8.ofNat len, val⟩, bytes)

/-- The bytes on a little-endian machine; the compiler pads `struct rt_wlan_info` by 3 bytes. -/
def infoBytes (info : WlanInfo) (pad : Vector UInt8 3) : List UInt8 :=
  leBytes 4 info.security.toNat ++ (leBytes 4 info.band.toNat ++
    (leBytes 4 info.datarate.toNat ++ (leBytes 2 info.channel.toUInt16.toNat ++
    (leBytes 2 info.rssi.toUInt16.toNat ++ (textBytes info.ssid ++ (info.bssid.toList ++
    (leBytes 1 info.hidden.toNat ++ pad.toList)))))))

def takeInfo (bytes : List UInt8) : Option ((WlanInfo × Vector UInt8 3) × List UInt8) := do
  let (security, bytes) ← takeNat 4 bytes
  let (band, bytes) ← takeNat 4 bytes
  let (datarate, bytes) ← takeNat 4 bytes
  let (channel, bytes) ← takeNat 2 bytes
  let (rssi, bytes) ← takeNat 2 bytes
  let (ssid, bytes) ← takeText bytes
  let (bssid, bytes) ← takeVector 6 bytes
  let (hidden, bytes) ← takeNat 1 bytes
  let (pad, bytes) ← takeVector 3 bytes
  return ((⟨UInt32.ofNat security, UInt32.ofNat band, UInt32.ofNat datarate,
    (UInt16.ofNat channel).toInt16, (UInt16.ofNat rssi).toInt16, ssid, bssid,
    UInt8.ofNat hidden⟩, pad), bytes)

abbrev CfgPad := Vector UInt8 3 × Vector UInt8 2

/-- The whole of `struct rt_wlan_cfg_info` is padded by 2 bytes more. -/
def cfgInfoBytes (c : WlanCfgInfo) (pad : CfgPad) : List UInt8 :=
  infoBytes c.info pad.1 ++ (textBytes c.key ++ pad.2.toList)

def takeCfgInfo (bytes : List UInt8) : Option ((WlanCfgInfo × CfgPad) × List UInt8) := do
  let ((info, pad), bytes) ← takeInfo bytes
  let (key, bytes) ← takeText bytes
  let (tail, bytes) ← takeVector 2 bytes
  return ((⟨info, key⟩, pad, tail), bytes)

def headBytes (head : CfgSaveInfoHead) : List UInt8 :=
  leBytes 4 head.magic ++ (leBytes 4 head.len ++ (leBytes 4 head.num ++ leBytes 4 head.crc))

def takeHead (bytes : List UInt8) : Option (CfgSaveInfoHead × List UInt8) := do
  let (magic, bytes) ← takeNat 4 bytes
  let (len, bytes) ← takeNat 4 bytes
  let (num, bytes) ← takeNat 4 bytes
  let (crc, bytes) ← takeNat 4 bytes
  return (⟨magic, len, num, crc⟩, bytes)

/-- The array at `cfg_info` as bytes, whatever its padding holds. -/
def cacheBytes (cache : WlanCfgCache) (pads : Nat → CfgPad) : List UInt8 :=
  (List.range cache.num).flatMap fun i => cfgInfoBytes (cache.cfgInfo i) (pads i)

/-- What `rt_wlan_cfg_cache_save` hands to `write_cfg`. -/
def wlanPackage (cache : WlanCfgCache) (pads : Nat → CfgPad) : Option (List UInt8) :=
  let len := sizeofHead + sizeofCfgInfo * cache.num
  let info := cacheBytes cache pads
  (rtWlanCalCrc info (sizeofCfgInfo * cache.num) 0).map fun crc =>
    headBytes ⟨rtWlanCfgMagic, len, cache.num, crc.toNat⟩ ++ info

/-- What `get_len` and `read_cfg` return, and the bytes that `read_cfg` fills in. -/
structure WlanFlash where
  len : Int
  readLen : Int
  bytes : List UInt8

def addInfo (cache : WlanCfgCache) (c : WlanCfgInfo) : WlanCfgCache :=
  ⟨cache.num + 1, Function.update cache.cfgInfo cache.num c⟩

/-- The loop over the entries from `i` on, `n` of them left. -/
def refreshLoop (max : Nat) (data : List UInt8) : Nat → Nat → WlanCfgCache → Option WlanCfgCache
  | 0, _, cache => some cache
  | n + 1, i, cache =>
    (takeCfgInfo (data.drop (sizeofCfgInfo * i))).bind fun ((c, _), _) =>
      let equalFlag := (findStation cache c).isSome
      if max ≤ cache.num then some cache
      else refreshLoop max data n (i + 1) (if equalFlag then cache else addInfo cache c)

/-- `rt_wlan_cfg_cache_refresh`; `none` is a read outside the bytes. The length less the header is
an unsigned word. -/
def rtWlanCfgCacheRefresh (max : Nat) (cache : WlanCfgCache) (flash : Option WlanFlash) :
    Option (WlanCode × WlanCfgCache) :=
  if max ≤ cache.num then some (.error, cache)
  else match flash with
    | none => some (.error, cache)
    | some flash =>
      if flash.len ≤ 0 then some (.error, cache)
      else if flash.readLen ≠ flash.len then some (.error, cache)
      else
        let len := flash.len.toNat
        let data := flash.bytes.drop sizeofHead
        (rtWlanCalCrc data (wordSub len sizeofHead) 0).bind fun crc =>
          (takeHead flash.bytes).bind fun (head, _) =>
            if head.magic ≠ rtWlanCfgMagic ∨ head.len ≠ len ∨
                head.num ≠ wordSub len sizeofHead / sizeofCfgInfo ∨ head.crc ≠ crc.toNat then
              some (.error, cache)
            else (refreshLoop max data head.num 0 cache).map fun cache => (.eok, cache)

/-- What a device stores: at least a byte, and no more than an `int` counts. -/
structure WlanBlob where
  bytes : List UInt8
  pos : 0 < bytes.length
  fits : bytes.length < 2147483648

def WlanBlob.flash (blob : WlanBlob) : WlanFlash :=
  ⟨blob.bytes.length, blob.bytes.length, blob.bytes⟩

/-- The package of a cache whose length is an `int`. -/
def savedBlob (cache : WlanCfgCache) (pads : Nat → CfgPad)
    (h : (headBytes default ++ cacheBytes cache pads).length < 2147483648) : WlanBlob where
  bytes := headBytes ⟨rtWlanCfgMagic, sizeofHead + sizeofCfgInfo * cache.num, cache.num,
    ((cacheBytes cache pads).foldl crcByte 0).toNat⟩ ++ cacheBytes cache pads
  pos := by simp [headBytes]
  fits := by simpa [headBytes] using h

/-- The package of a cache gives the same list back to an empty cache. -/
def Restored (max : Nat) (cache : WlanCfgCache) (blob : WlanBlob) : Prop :=
  ∃ cache', rtWlanCfgCacheRefresh max emptyCache (some blob.flash) = some (.eok, cache') ∧
    cache'.contents = cache.contents

def Rejected (max : Nat) (cache : WlanCfgCache) (blob : WlanBlob) : Prop :=
  rtWlanCfgCacheRefresh max cache (some blob.flash) = some (.error, cache)

/-- Some cache within its bound has this package. -/
def Savable (max : Nat) (blob : WlanBlob) : Prop :=
  ∃ cache pads, cache.num ≤ max ∧ wlanPackage cache pads = some blob.bytes

/-- The four checks on the header. -/
def HeadMatches (bytes : List UInt8) : Prop :=
  ∃ head ∈ (takeHead bytes).map Prod.fst, head.magic = rtWlanCfgMagic ∧ head.len = bytes.length ∧
    head.num = (bytes.length - sizeofHead) / sizeofCfgInfo ∧
    head.crc = ((bytes.drop sizeofHead).foldl crcByte 0).toNat

instance decidableHeadMatches (bytes : List UInt8) : Decidable (HeadMatches bytes) :=
  inferInstanceAs (Decidable (∃ head ∈ (takeHead bytes).map Prod.fst, _))

section
variable {max n i : Nat} {cache saved : WlanCfgCache} {c : WlanCfgInfo} {info : WlanInfo}
  {rest data : List UInt8} {pad : CfgPad} {pads : Nat → CfgPad} {head : CfgSaveInfoHead}

theorem takeNat_word (x : UInt32) :
    takeNat 4 (leBytes 4 x.toNat ++ rest) = some (x.toNat, rest) :=
  takeNat_leBytes x.toNat_lt

theorem takeNat_half (x : UInt16) :
    takeNat 2 (leBytes 2 x.toNat ++ rest) = some (x.toNat, rest) :=
  takeNat_leBytes x.toNat_lt

theorem takeNat_byte (x : UInt8) :
    takeNat 1 (leBytes 1 x.toNat ++ rest) = some (x.toNat, rest) :=
  takeNat_leBytes x.toNat_lt

theorem takeText_bytes (t : WlanText) : takeText (textBytes t ++ rest) = some (t, rest) := by
  unfold takeText textBytes
  simp only [List.append_assoc, takeNat_byte, takeVector_append, Option.bind_eq_bind,
    Option.bind_some, UInt8.ofNat_toNat]
  rfl

theorem takeInfo_bytes (pad : Vector UInt8 3) :
    takeInfo (infoBytes info pad ++ rest) = some ((info, pad), rest) := by
  unfold takeInfo infoBytes
  simp only [List.append_assoc, takeNat_word, takeNat_half, takeNat_byte, takeVector_append,
    takeText_bytes, Option.bind_eq_bind, Option.bind_some, UInt32.ofNat_toNat, UInt16.ofNat_toNat,
    UInt8.ofNat_toNat]
  rfl

theorem takeCfgInfo_bytes : takeCfgInfo (cfgInfoBytes c pad ++ rest) = some ((c, pad), rest) := by
  unfold takeCfgInfo cfgInfoBytes
  simp only [List.append_assoc, takeInfo_bytes, takeVector_append, takeText_bytes,
    Option.bind_eq_bind, Option.bind_some]
  rfl

theorem textBytes_length (t : WlanText) : (textBytes t).length = 34 := by simp [textBytes]

theorem cfgInfoBytes_length : (cfgInfoBytes c pad).length = sizeofCfgInfo := by
  simp [cfgInfoBytes, infoBytes, textBytes_length, sizeofCfgInfo]

theorem word_onto (h : 4 ≤ data.length) :
    ∃ (x : UInt32) (rest : List UInt8), data = leBytes 4 x.toNat ++ rest := by
  obtain ⟨x, rest, -, hx, hdata⟩ := takeNat_some h
  exact ⟨UInt32.ofNat x, rest, by rwa [UInt32.toNat_ofNat_of_lt' hx]⟩

theorem half_onto (h : 2 ≤ data.length) :
    ∃ (x : UInt16) (rest : List UInt8), data = leBytes 2 x.toNat ++ rest := by
  obtain ⟨x, rest, -, hx, hdata⟩ := takeNat_some h
  exact ⟨UInt16.ofNat x, rest, by rwa [UInt16.toNat_ofNat_of_lt' hx]⟩

theorem byte_onto (h : 1 ≤ data.length) :
    ∃ (x : UInt8) (rest : List UInt8), data = leBytes 1 x.toNat ++ rest := by
  obtain ⟨x, rest, -, hx, hdata⟩ := takeNat_some h
  exact ⟨UInt8.ofNat x, rest, by rwa [UInt8.toNat_ofNat_of_lt' hx]⟩

theorem vector_onto (h : n ≤ data.length) :
    ∃ (v : Vector UInt8 n) (rest : List UInt8), data = v.toList ++ rest := by
  obtain ⟨v, rest, -, hdata⟩ := takeVector_some h
  exact ⟨v, rest, hdata⟩

theorem text_onto (h : 34 ≤ data.length) : ∃ t rest, data = textBytes t ++ rest := by
  obtain ⟨len, r, rfl⟩ := byte_onto (Nat.le_trans (by decide) h)
  rw [List.length_append, leBytes_length] at h
  obtain ⟨val, rest, rfl⟩ := vector_onto (Nat.le_of_add_le_add_left h : 33 ≤ r.length)
  exact ⟨⟨len, val⟩, rest, (List.append_assoc _ _ _).symm⟩

theorem info_onto (h : 60 ≤ data.length) :
    ∃ info pad rest, data = infoBytes info pad ++ rest := by
  obtain ⟨security, r1, rfl⟩ := word_onto (by omega : 4 ≤ data.length)
  rw [List.length_append, leBytes_length] at h
  obtain ⟨band, r2, rfl⟩ := word_onto (by omega : 4 ≤ r1.length)
  rw [List.length_append, leBytes_length] at h
  obtain ⟨datarate, r3, rfl⟩ := word_onto (by omega : 4 ≤ r2.length)
  rw [List.length_append, leBytes_length] at h
  obtain ⟨channel, r4, rfl⟩ := half_onto (by omega : 2 ≤ r3.length)
  rw [List.length_append, leBytes_length] at h
  obtain ⟨rssi, r5, rfl⟩ := half_onto (by omega : 2 ≤ r4.length)
  rw [List.length_append, leBytes_length] at h
  obtain ⟨ssid, r6, rfl⟩ := text_onto (by omega : 34 ≤ r5.length)
  rw [List.length_append, textBytes_length] at h
  obtain ⟨bssid, r7, rfl⟩ := vector_onto (by omega : 6 ≤ r6.length)
  rw [List.length_append, Vector.length_toList] at h
  obtain ⟨hidden, r8, rfl⟩ := byte_onto (by omega : 1 ≤ r7.length)
  rw [List.length_append, leBytes_length] at h
  obtain ⟨pad, rest, rfl⟩ := vector_onto (by omega : 3 ≤ r8.length)
  refine ⟨⟨security, band, datarate, channel.toInt16, rssi.toInt16, ssid, bssid, hidden⟩, pad, rest,
    ?_⟩
  simp [infoBytes]

/-- Every stretch of that many bytes is a structure with its padding. -/
theorem cfgInfo_onto (h : sizeofCfgInfo ≤ data.length) :
    ∃ c pad rest, data = cfgInfoBytes c pad ++ rest := by
  unfold sizeofCfgInfo at h
  obtain ⟨info, pad, r1, rfl⟩ := info_onto (by omega : 60 ≤ data.length)
  have hinfo : (infoBytes info pad).length = 60 := by simp [infoBytes, textBytes_length]
  rw [List.length_append, hinfo] at h
  obtain ⟨key, r2, rfl⟩ := text_onto (by omega : 34 ≤ r1.length)
  rw [List.length_append, textBytes_length] at h
  obtain ⟨tail, rest, rfl⟩ := vector_onto (by omega : 2 ≤ r2.length)
  exact ⟨⟨info, key⟩, (pad, tail), rest, by simp [cfgInfoBytes]⟩

theorem rtWlanCalCrc_eq {crc : BitVec 16} : rtWlanCalCrc data n crc =
    if n ≤ data.length then some ((data.take n).foldl crcByte crc) else none := by
  induction n generalizing data crc with
  | zero => simp [rtWlanCalCrc]
  | succ n ih =>
    cases data with
    | nil => simp [rtWlanCalCrc]
    | cons b bs =>
      rw [rtWlanCalCrc, ih]
      simp

theorem cacheBytes_length : (cacheBytes cache pads).length = sizeofCfgInfo * cache.num := by
  unfold cacheBytes
  rw [List.length_flatMap, List.map_congr_left fun i _ => cfgInfoBytes_length]
  simp [Nat.mul_comm]

theorem wlanPackage_eq : wlanPackage cache pads =
    some (headBytes ⟨rtWlanCfgMagic, sizeofHead + sizeofCfgInfo * cache.num, cache.num,
      ((cacheBytes cache pads).foldl crcByte 0).toNat⟩ ++ cacheBytes cache pads) := by
  unfold wlanPackage
  simp only [rtWlanCalCrc_eq]
  rw [if_pos cacheBytes_length.ge, ← cacheBytes_length, List.take_length]
  rfl

theorem headBytes_length : (headBytes head).length = sizeofHead := by
  simp [headBytes, sizeofHead]

theorem takeHead_bytes (hmagic : head.magic < 256 ^ 4) (hlen : head.len < 256 ^ 4)
    (hnum : head.num < 256 ^ 4) (hcrc : head.crc < 256 ^ 4) :
    takeHead (headBytes head ++ rest) = some (head, rest) := by
  unfold takeHead headBytes
  simp only [List.append_assoc, takeNat_leBytes hmagic, takeNat_leBytes hlen, takeNat_leBytes hnum,
    takeNat_leBytes hcrc, Option.bind_eq_bind, Option.bind_some]
  rfl

theorem head_onto (h : sizeofHead ≤ data.length) : ∃ head rest, takeHead data = some (head, rest) ∧
    head.magic < 256 ^ 4 ∧ head.len < 256 ^ 4 ∧ head.num < 256 ^ 4 ∧ head.crc < 256 ^ 4 ∧
    data = headBytes head ++ rest := by
  unfold sizeofHead at h
  obtain ⟨magic, r1, rfl⟩ := word_onto (by omega : 4 ≤ data.length)
  rw [List.length_append, leBytes_length] at h
  obtain ⟨len, r2, rfl⟩ := word_onto (by omega : 4 ≤ r1.length)
  rw [List.length_append, leBytes_length] at h
  obtain ⟨num, r3, rfl⟩ := word_onto (by omega : 4 ≤ r2.length)
  rw [List.length_append, leBytes_length] at h
  obtain ⟨crc, rest, rfl⟩ := word_onto (by omega : 4 ≤ r3.length)
  have hdata : leBytes 4 magic.toNat ++ (leBytes 4 len.toNat ++ (leBytes 4 num.toNat ++
      (leBytes 4 crc.toNat ++ rest))) =
      headBytes ⟨magic.toNat, len.toNat, num.toNat, crc.toNat⟩ ++ rest := by simp [headBytes]
  refine ⟨_, rest, ?_, magic.toNat_lt, len.toNat_lt, num.toNat_lt, crc.toNat_lt, hdata⟩
  rw [hdata]
  exact takeHead_bytes magic.toNat_lt len.toNat_lt num.toNat_lt crc.toNat_lt

theorem cacheBytes_drop (hi : i < cache.num) : ∃ rest,
    (cacheBytes cache pads).drop (sizeofCfgInfo * i) =
      cfgInfoBytes (cache.cfgInfo i) (pads i) ++ rest := by
  obtain ⟨m, hm⟩ : ∃ m, cache.num = i + (m + 1) := ⟨cache.num - i - 1, by omega⟩
  have hbefore : (cacheBytes ⟨i, cache.cfgInfo⟩ pads).length = sizeofCfgInfo * i :=
    cacheBytes_length
  unfold cacheBytes at hbefore ⊢
  rw [hm, List.range_add, List.flatMap_append, List.drop_left' hbefore, List.range_succ_eq_map,
    List.map_cons, List.flatMap_cons]
  exact ⟨_, rfl⟩

/-- Bytes enough for `n` entries are the bytes of some `n` entries. -/
theorem cacheBytes_onto (h : data.length = sizeofCfgInfo * n) : ∃ cfgInfo pads,
    data = cacheBytes ⟨n, cfgInfo⟩ pads := by
  have hentry : ∀ k, ∃ c pad, k < n →
      (data.drop (sizeofCfgInfo * k)).take sizeofCfgInfo = cfgInfoBytes c pad := by
    intro k
    by_cases hk : k < n
    · have hroom : sizeofCfgInfo ≤ (data.drop (sizeofCfgInfo * k)).length := by
        rw [List.length_drop, h, ← Nat.mul_sub]
        exact Nat.le_mul_of_pos_right _ (by omega)
      obtain ⟨c, pad, rest, hdata⟩ := cfgInfo_onto hroom
      exact ⟨c, pad, fun _ => by rw [hdata, List.take_left' cfgInfoBytes_length]⟩
    · exact ⟨default, default, fun hlt => absurd hlt hk⟩
  choose cfgInfo pads hentry using hentry
  refine ⟨cfgInfo, pads, ?_⟩
  have hparts : ∀ k ≤ n, cacheBytes ⟨k, cfgInfo⟩ pads = data.take (sizeofCfgInfo * k) := by
    intro k hk
    induction k with
    | zero => rfl
    | succ k ih =>
      have hlast := hentry k hk
      have hbefore := ih (by omega)
      unfold cacheBytes at hbefore ⊢
      rw [List.range_succ, List.flatMap_append, List.flatMap_singleton, ← hlast]
      simp only at hbefore ⊢
      rw [hbefore, Nat.mul_succ, List.take_add]
  rw [hparts n le_rfl, ← h, List.take_length]

theorem contents_addInfo : (addInfo cache c).contents = cache.contents ++ [c] := by
  unfold WlanCfgCache.contents addInfo
  simp only [List.range_succ, List.map_append, List.map_singleton, Function.update_self]
  congr 1
  apply List.map_congr_left
  intro k hk
  exact Function.update_of_ne (Nat.ne_of_lt (List.mem_range.mp hk)) _ _

theorem findStation_isSome : (findStation cache c).isSome = true ↔
    ∃ x ∈ cache.contents, stationKey x = stationKey c := by
  constructor
  · intro h
    obtain ⟨k, hk⟩ := Option.isSome_iff_exists.mp h
    obtain ⟨hlt, hkey⟩ := findStation_some hk
    exact ⟨_, List.mem_map_of_mem (List.mem_range.mpr hlt), hkey⟩
  · rintro ⟨x, hx, hkey⟩
    by_contra hnone
    exact findStation_none (Option.not_isSome_iff_eq_none.mp hnone) x hx hkey

/-- The loop merges the stored entries into the cache. -/
theorem refreshLoop_merges (max : Nat) (cache : WlanCfgCache) {f : Nat → WlanCfgInfo}
    (hentry : ∀ k, i ≤ k → k < i + n →
      ∃ pad rest, data.drop (sizeofCfgInfo * k) = cfgInfoBytes (f k) pad ++ rest) :
    ∃ cache', refreshLoop max data n i cache = some cache' ∧ cache'.contents =
      mergeNew stationKey max cache.contents ((List.range' i n).map f) := by
  induction n generalizing i cache with
  | zero => exact ⟨cache, rfl, rfl⟩
  | succ n ih =>
    obtain ⟨pad, rest, hdata⟩ := hentry i le_rfl (by omega)
    rw [refreshLoop, hdata, takeCfgInfo_bytes, Option.bind_some, List.range'_succ, List.map_cons,
      mergeNew, cacheContents_length]
    by_cases hfull : max ≤ cache.num
    · simp only [if_pos hfull]
      exact ⟨cache, rfl, rfl⟩
    · simp only [if_neg hfull]
      have hrest : ∀ k, i + 1 ≤ k → k < i + 1 + n → ∃ pad rest,
          data.drop (sizeofCfgInfo * k) = cfgInfoBytes (f k) pad ++ rest :=
        fun k hik hk => hentry k (by omega) (by omega)
      by_cases hfound : (findStation cache (f i)).isSome = true
      · rw [if_pos hfound, if_pos (findStation_isSome.mp hfound)]
        exact ih _ hrest
      · rw [if_neg hfound, if_neg fun hx => hfound (findStation_isSome.mpr hx), ← contents_addInfo]
        exact ih _ hrest

theorem refresh_full {blob : WlanBlob} (h : max ≤ cache.num) : Rejected max cache blob := if_pos h

/-- Past the checks on the operations the checksum comes first. -/
theorem refresh_eq (blob : WlanBlob) (h : ¬max ≤ cache.num) :
    rtWlanCfgCacheRefresh max cache (some blob.flash) =
      (rtWlanCalCrc (blob.bytes.drop sizeofHead) (wordSub blob.bytes.length sizeofHead) 0).bind
        fun crc => (takeHead blob.bytes).bind fun (head, _) =>
          if head.magic ≠ rtWlanCfgMagic ∨ head.len ≠ blob.bytes.length ∨
              head.num ≠ wordSub blob.bytes.length sizeofHead / sizeofCfgInfo ∨
              head.crc ≠ crc.toNat then
            some (.error, cache)
          else (refreshLoop max (blob.bytes.drop sizeofHead) head.num 0 cache).map
            fun cache => (.eok, cache) := by
  have hpos : ¬blob.flash.len ≤ 0 := by
    have hlen := blob.pos
    show ¬(blob.bytes.length : Int) ≤ 0
    omega
  have hread : ¬blob.flash.readLen ≠ blob.flash.len := not_not.mpr rfl
  unfold rtWlanCfgCacheRefresh
  rw [if_neg h]
  simp only
  rw [if_neg hpos, if_neg hread]
  rfl

/-- A package shorter than its header has the checksum run past its end. -/
theorem refresh_short {blob : WlanBlob} (h : ¬max ≤ cache.num)
    (hlen : blob.bytes.length < sizeofHead) :
    rtWlanCfgCacheRefresh max cache (some blob.flash) = none := by
  have hpos := blob.pos
  unfold sizeofHead at hlen
  have hword : wordSub blob.bytes.length sizeofHead = blob.bytes.length + 4294967280 := by
    unfold wordSub sizeofHead
    omega
  have hlong : ¬wordSub blob.bytes.length sizeofHead ≤ (blob.bytes.drop sizeofHead).length := by
    rw [hword, List.length_drop]
    omega
  rw [refresh_eq blob h, rtWlanCalCrc_eq, if_neg hlong, Option.bind_none]

theorem refresh_long {blob : WlanBlob} (h : ¬max ≤ cache.num)
    (hlen : sizeofHead ≤ blob.bytes.length) : (¬HeadMatches blob.bytes ∧ Rejected max cache blob) ∨
      (HeadMatches blob.bytes ∧ rtWlanCfgCacheRefresh max cache (some blob.flash) =
        (refreshLoop max (blob.bytes.drop sizeofHead)
          ((blob.bytes.length - sizeofHead) / sizeofCfgInfo) 0 cache).map
            fun cache => (.eok, cache)) := by
  have hfits := blob.fits
  have hword : wordSub blob.bytes.length sizeofHead = blob.bytes.length - sizeofHead :=
    wordSub_of_le (by omega) hlen
  have hall : (blob.bytes.drop sizeofHead).length = blob.bytes.length - sizeofHead :=
    List.length_drop
  obtain ⟨head, rest, htake, -⟩ := head_onto hlen
  have hrefresh := refresh_eq blob h
  rw [hword, rtWlanCalCrc_eq, if_pos hall.ge, Option.bind_some, ← hall, List.take_length, htake,
    Option.bind_some] at hrefresh
  simp only at hrefresh
  have hmatches : HeadMatches blob.bytes ↔ head.magic = rtWlanCfgMagic ∧
      head.len = blob.bytes.length ∧
      head.num = (blob.bytes.length - sizeofHead) / sizeofCfgInfo ∧
      head.crc = ((blob.bytes.drop sizeofHead).foldl crcByte 0).toNat := by
    simp [HeadMatches, htake]
  by_cases hhead : HeadMatches blob.bytes
  · right
    refine ⟨hhead, ?_⟩
    obtain ⟨hmagic, hl, hnum, hcrc⟩ := hmatches.mp hhead
    rw [← hall] at hnum ⊢
    rw [hrefresh, if_neg (by simp only [not_or, not_not]; exact ⟨hmagic, hl, hnum, hcrc⟩), hnum]
  · left
    refine ⟨hhead, ?_⟩
    unfold Rejected
    rw [hrefresh, if_pos]
    by_contra hno
    simp only [not_or, not_not] at hno
    rw [hall] at hno
    exact hhead (hmatches.mpr hno)

/-- The packages that can have been saved pass the checks, hold whole entries and no more of them
than the cache takes. -/
theorem savable_iff {blob : WlanBlob} : Savable max blob ↔ sizeofHead ≤ blob.bytes.length ∧
    HeadMatches blob.bytes ∧ (blob.bytes.length - sizeofHead) % sizeofCfgInfo = 0 ∧
    (blob.bytes.length - sizeofHead) / sizeofCfgInfo ≤ max := by
  have hfits := blob.fits
  constructor
  · rintro ⟨cache, pads, hmax, hpackage⟩
    have hbytes := Option.some.inj (wlanPackage_eq.symm.trans hpackage)
    have hlen : blob.bytes.length = sizeofHead + sizeofCfgInfo * cache.num := by
      rw [← hbytes, List.length_append, headBytes_length, cacheBytes_length]
    have hnum : (blob.bytes.length - sizeofHead) / sizeofCfgInfo = cache.num := by
      rw [hlen, Nat.add_sub_cancel_left]
      exact Nat.mul_div_cancel_left _ (by decide)
    have htake : takeHead blob.bytes = some (⟨rtWlanCfgMagic, blob.bytes.length, cache.num,
        ((cacheBytes cache pads).foldl crcByte 0).toNat⟩, cacheBytes cache pads) := by
      have hcrc := ((cacheBytes cache pads).foldl crcByte 0).isLt
      have hcount : cache.num ≤ blob.bytes.length := by
        rw [hlen]
        unfold sizeofCfgInfo
        omega
      rw [← hlen] at hbytes
      have hmade : takeHead (headBytes ⟨rtWlanCfgMagic, blob.bytes.length, cache.num,
          ((cacheBytes cache pads).foldl crcByte 0).toNat⟩ ++ cacheBytes cache pads) = _ :=
        takeHead_bytes (show rtWlanCfgMagic < 256 ^ 4 by decide) (Nat.lt_trans hfits (by decide))
          (Nat.lt_trans (Nat.lt_of_le_of_lt hcount hfits) (by decide))
          (Nat.lt_trans hcrc (by decide))
      rwa [hbytes] at hmade
    refine ⟨by omega, ?_, ?_, by omega⟩
    · unfold HeadMatches
      rw [htake]
      refine ⟨_, rfl, rfl, rfl, hnum.symm, ?_⟩
      rw [← hbytes, List.drop_left' headBytes_length]
    · rw [hlen, Nat.add_sub_cancel_left, Nat.mul_mod_right]
  · rintro ⟨hlen, ⟨head, hhead, hmagic, hl, hnum, hcrc⟩, hwhole, hmax⟩
    obtain ⟨head', rest, htake, -, -, -, -, hbytes⟩ := head_onto hlen
    rw [htake] at hhead
    obtain rfl : head' = head := Option.some.inj hhead
    have hrest : blob.bytes.drop sizeofHead = rest := by
      rw [hbytes, List.drop_left' headBytes_length]
    have hdivide := Nat.mul_div_cancel' (Nat.dvd_of_mod_eq_zero hwhole)
    have hrestlen : rest.length =
        sizeofCfgInfo * ((blob.bytes.length - sizeofHead) / sizeofCfgInfo) := by
      rw [← hrest, List.length_drop, hdivide]
    obtain ⟨cfgInfo, pads, hcache⟩ := cacheBytes_onto hrestlen
    refine ⟨⟨_, cfgInfo⟩, pads, hmax, ?_⟩
    have hfields : (⟨rtWlanCfgMagic, sizeofHead + sizeofCfgInfo *
        ((blob.bytes.length - sizeofHead) / sizeofCfgInfo),
        (blob.bytes.length - sizeofHead) / sizeofCfgInfo, (rest.foldl crcByte 0).toNat⟩ :
        CfgSaveInfoHead) = head' := by
      rw [hdivide, ← hnum, ← hrest, ← hcrc, Nat.add_sub_cancel' hlen, ← hl, ← hmagic]
    rw [wlanPackage_eq, ← hcache, hfields, ← hbytes]

/-- Where the refresh of a cache does what it should with the bytes of a device: the cache is full,
or there is a whole header and, if it passes the checks, the entries are whole and not too many. -/
def RefreshSafe (max : Nat) (cache : WlanCfgCache) (blob : WlanBlob) : Prop :=
  max ≤ cache.num ∨ sizeofHead ≤ blob.bytes.length ∧ (HeadMatches blob.bytes →
    (blob.bytes.length - sizeofHead) % sizeofCfgInfo = 0 ∧
      (blob.bytes.length - sizeofHead) / sizeofCfgInfo ≤ max)

instance decidableRefreshSafe (max : Nat) (cache : WlanCfgCache) (blob : WlanBlob) :
    Decidable (RefreshSafe max cache blob) :=
  inferInstanceAs (Decidable (_ ∨ _ ∧ (_ → _)))

theorem refresh_accepts {blob : WlanBlob} (h : ¬max ≤ cache.num)
    (hlen : sizeofHead ≤ blob.bytes.length) (hhead : HeadMatches blob.bytes) : ∃ cache',
      rtWlanCfgCacheRefresh max cache (some blob.flash) = some (.eok, cache') := by
  rcases refresh_long h hlen with ⟨hno, -⟩ | ⟨-, hrefresh⟩
  · exact absurd hhead hno
  · have hentry : ∀ k, ∃ c, k < (blob.bytes.length - sizeofHead) / sizeofCfgInfo →
        ∃ pad rest, (blob.bytes.drop sizeofHead).drop (sizeofCfgInfo * k) =
          cfgInfoBytes c pad ++ rest := by
      intro k
      by_cases hk : k < (blob.bytes.length - sizeofHead) / sizeofCfgInfo
      · have hroom : sizeofCfgInfo ≤
            ((blob.bytes.drop sizeofHead).drop (sizeofCfgInfo * k)).length := by
          rw [List.length_drop, List.length_drop]
          unfold sizeofCfgInfo at hk ⊢
          omega
        obtain ⟨c, pad, rest, hdata⟩ := cfgInfo_onto hroom
        exact ⟨c, fun _ => ⟨pad, rest, hdata⟩⟩
      · exact ⟨default, fun hlt => absurd hlt hk⟩
    choose f hentry using hentry
    have hread : ∀ k, 0 ≤ k → k < 0 + (blob.bytes.length - sizeofHead) / sizeofCfgInfo →
        ∃ pad rest, (blob.bytes.drop sizeofHead).drop (sizeofCfgInfo * k) =
          cfgInfoBytes (f k) pad ++ rest := fun k _ hk => hentry k (by omega)
    obtain ⟨cache', hloop, -⟩ := refreshLoop_merges max cache hread
    exact ⟨cache', by rw [hrefresh, hloop]; rfl⟩

theorem rejected_iff {blob : WlanBlob} :
    (¬Savable max blob → Rejected max cache blob) ↔ RefreshSafe max cache blob := by
  by_cases hsav : Savable max blob
  · obtain ⟨hlen, -, hwhole, hmax⟩ := savable_iff.mp hsav
    exact ⟨fun _ => .inr ⟨hlen, fun _ => ⟨hwhole, hmax⟩⟩, fun _ hno => absurd hsav hno⟩
  simp only [hsav, not_false_eq_true, true_imp_iff]
  unfold RefreshSafe
  by_cases hfull : max ≤ cache.num
  · exact ⟨fun _ => .inl hfull, fun _ => refresh_full hfull⟩
  by_cases hlen : sizeofHead ≤ blob.bytes.length
  · constructor
    · intro hrejected
      right
      refine ⟨hlen, fun hhead => ?_⟩
      obtain ⟨cache', haccepted⟩ := refresh_accepts hfull hlen hhead
      rw [hrejected] at haccepted
      simp at haccepted
    · rintro (hfull' | ⟨-, hsound⟩)
      · exact absurd hfull' hfull
      · rcases refresh_long hfull hlen with ⟨-, hrejected⟩ | ⟨hhead, -⟩
        · exact hrejected
        · obtain ⟨hwhole, hmax⟩ := hsound hhead
          exact absurd (savable_iff.mpr ⟨hlen, hhead, hwhole, hmax⟩) hsav
  · constructor
    · intro hrejected
      rw [Rejected, refresh_short hfull (by omega)] at hrejected
      simp at hrejected
    · rintro (hfull' | ⟨hlen', -⟩)
      · exact absurd hfull' hfull
      · exact absurd hlen' hlen

theorem restored_iff {blob : WlanBlob} (hmax : 0 < max)
    (hpackage : wlanPackage cache pads = some blob.bytes) :
    Restored max cache blob ↔ cache.num ≤ max ∧ KeysDiffer stationKey cache.contents := by
  have hfull : ¬max ≤ emptyCache.num := Nat.not_le_of_lt hmax
  obtain ⟨hlen, hhead, -, -⟩ := savable_iff.mp ⟨cache, pads, le_refl cache.num, hpackage⟩
  have hbytes := Option.some.inj (wlanPackage_eq.symm.trans hpackage)
  have hdata : blob.bytes.drop sizeofHead = cacheBytes cache pads := by
    rw [← hbytes, List.drop_left' headBytes_length]
  have hnum : (blob.bytes.length - sizeofHead) / sizeofCfgInfo = cache.num := by
    rw [← List.length_drop, hdata, cacheBytes_length]
    exact Nat.mul_div_cancel_left _ (by decide)
  have hentry : ∀ k, 0 ≤ k → k < 0 + cache.num → ∃ pad rest,
      (cacheBytes cache pads).drop (sizeofCfgInfo * k) = cfgInfoBytes (cache.cfgInfo k) pad ++ rest :=
    fun k _ hk => ⟨pads k, cacheBytes_drop (by omega)⟩
  obtain ⟨cache', hloop, hcontents⟩ := refreshLoop_merges max emptyCache hentry
  have hrefresh : rtWlanCfgCacheRefresh max emptyCache (some blob.flash) = some (.eok, cache') := by
    rcases refresh_long hfull hlen with ⟨hno, -⟩ | ⟨-, hrefresh⟩
    · exact absurd hhead hno
    · rw [hrefresh, hdata, hnum, hloop]
      rfl
  have hlist : (List.range' 0 cache.num).map cache.cfgInfo = cache.contents := by
    rw [← List.range_eq_range']
    rfl
  have hempty : emptyCache.contents = [] := rfl
  rw [hlist, hempty] at hcontents
  have hright : Restored max cache blob ↔ mergeNew stationKey max [] cache.contents =
      cache.contents := by
    rw [← hcontents]
    constructor
    · rintro ⟨cache'', hsame, hlist⟩
      rw [hrefresh] at hsame
      obtain rfl := (Prod.mk.inj (Option.some.inj hsame)).2
      exact hlist
    · intro hlist
      exact ⟨cache', hrefresh, hlist⟩
  rw [hright, mergeNew_nil_iff, cacheContents_length, and_comm]

/-- What is saved comes back, and what cannot have been saved is turned down, exactly where the
cache keeps its list and the bytes do not slip past the checks. -/
theorem wlanStorage_iff {max : Nat} (hmax : 0 < max) {saved cache : WlanCfgCache}
    {pads : Nat → CfgPad} {package blob : WlanBlob}
    (hpackage : wlanPackage saved pads = some package.bytes) :
    (Restored max saved package ∧ (¬Savable max blob → Rejected max cache blob)) ↔
      (saved.num ≤ max ∧ KeysDiffer stationKey saved.contents) ∧ RefreshSafe max cache blob := by
  rw [restored_iff hmax hpackage, rejected_iff]

end

/-- Open networks with the names a, b, c and so on. -/
def lettersCache (n : Nat) : WlanCfgCache := ⟨n, fun i => openNetwork (UInt8.ofNat (97 + i)) 1⟩

def lettersBlob (n : Nat) (h : n ≤ 4) : WlanBlob :=
  savedBlob (lettersCache n) (fun _ => default) (by
    rw [List.length_append, headBytes_length, cacheBytes_length]
    show 16 + 96 * n < 2147483648
    omega)

def zerosBlob (n : Nat) (h : n < 20) : WlanBlob :=
  ⟨List.replicate (n + 1) 0, by simp, by simp; omega⟩

theorem wlanStorage_restart : Restored 3 (lettersCache 2) (lettersBlob 2 (by decide)) ∧
    (¬Savable 3 (zerosBlob 19 (by decide)) → Rejected 3 (lettersCache 1) (zerosBlob 19 (by decide))) :=
  (wlanStorage_iff (by decide) wlanPackage_eq).mpr
    ⟨⟨by decide, by unfold KeysDiffer; decide⟩, by decide⟩

/-- One stray byte after an empty list. -/
def strayBlob : WlanBlob := ⟨headBytes ⟨rtWlanCfgMagic, 17, 0, 0⟩ ++ [0], by decide, by decide⟩

/-- Nothing saves a byte on its own, a byte after the last entry or more entries than the cache
takes: the first is read past its end and the others are accepted. -/
theorem wlanStorage_slips :
    (¬Savable 3 (zerosBlob 0 (by decide)) ∧
      rtWlanCfgCacheRefresh 3 emptyCache (some (zerosBlob 0 (by decide)).flash) = none) ∧
    (¬Savable 3 strayBlob ∧ ¬Rejected 3 emptyCache strayBlob) ∧
    (¬Savable 3 (lettersBlob 4 (by decide)) ∧ ¬Rejected 3 emptyCache (lettersBlob 4 (by decide))) := by
  refine ⟨⟨?_, ?_⟩, ⟨?_, ?_⟩, ?_, ?_⟩
  · intro h
    exact absurd (savable_iff.mp h).1 (by decide)
  · exact refresh_short (by decide) (by decide)
  · intro h
    exact absurd (savable_iff.mp h).2.2.1 (by decide)
  · intro h
    exact absurd (congrArg (Option.map Prod.fst) h) (by decide)
  · intro h
    have hlen : (lettersBlob 4 (by decide)).bytes.length = 400 := by
      show (headBytes _ ++ cacheBytes (lettersCache 4) fun _ => default).length = 400
      rw [List.length_append, headBytes_length, cacheBytes_length]
      rfl
    have hfew := (savable_iff.mp h).2.2.2
    rw [hlen] at hfew
    exact absurd hfew (by decide)
  · intro h
    have hsaved : Savable 4 (lettersBlob 4 (by decide)) := ⟨_, _, le_refl 4, wlanPackage_eq⟩
    obtain ⟨hlen, hhead, -, -⟩ := savable_iff.mp hsaved
    obtain ⟨cache', haccepted⟩ := refresh_accepts (by decide : ¬3 ≤ emptyCache.num) hlen hhead
    rw [h] at haccepted
    simp at haccepted

end RTThread
