import RTThread.RomfsReads

namespace RTThread

/-- `struct dirent`. -/
structure Dirent where
  type : Nat
  namlen : Nat
  reclen : Nat
  name : CString
deriving DecidableEq

def sizeofDirent : Nat := 260

def dtReg : Nat := 1

def dtDir : Nat := 2

/-- What `memset` leaves of a record. -/
def Dirent.zero : Dirent := ⟨0, 0, 0, []⟩

/-- What `dfs_romfs_getdents` puts into the record of an entry. -/
def RomfsDirent.dirent (sub : RomfsDirent) : Dirent :=
  ⟨if sub.type = romfsDirentDir then dtDir else dtReg, sub.name.length % 256, sizeofDirent, sub.name⟩

/-- The name and its NUL stay in `d_name`. -/
def RomfsDirent.NameFits (sub : RomfsDirent) : Prop := sub.name.length < 256

instance (sub : RomfsDirent) : Decidable sub.NameFits := inferInstanceAs (Decidable (_ < _))

namespace RomfsFd

/-- The loop of `dfs_romfs_getdents` with `count` records left; `none` is an access behind the
entries or a name that leaves `d_name`. -/
def getdentsLoop : Nat → RomfsFd → Option (List Dirent × RomfsFd)
  | 0, file => some ([], file)
  | count + 1, file =>
    if file.pos < file.size then do
      let sub ← file.dirent.entries[file.pos]?
      if sub.NameFits then
        let (ds, file) ← getdentsLoop count { file with pos := word (file.pos + 1) }
        some (sub.dirent :: ds, file)
      else none
    else some ([], file)

def dfsRomfsGetdents (file : RomfsFd) (count : Nat) : Option (Int × List Dirent × RomfsFd) :=
  if file.dirent.check then
    if file.dirent.type = romfsDirentDir then
      if count / sizeofDirent = 0 then some (-22, [], file)
      else do
        let (ds, file) ← file.getdentsLoop (count / sizeofDirent)
        some (ds.length * sizeofDirent, ds, file)
    else none
  else some (-5, [], file)

end RomfsFd

/-- `DIR` of an open folder; of the second record only the head lies in the 512 bytes of `buf`. -/
structure Dir where
  file : RomfsFd
  buf : List Dirent
  num : Nat
  cur : Nat

inductive DirCall where
  | readdir
  | telldir
  | seekdir (offset : BitVec 32)
  | rewinddir
deriving DecidableEq

inductive DirAnswer where
  | entry (d : Option Dirent)
  | position (p : BitVec 32)
  | done
deriving DecidableEq

namespace Dir

/-- The inner `none` is `NULL`; `rt_malloc` has memory. -/
def opendir (root : RomfsDirent) (name : CString) : Option (Option Dir) := do
  match ← RomfsFd.dfsRomfsOpen root oDirectory name with
  | .ok file => some (some ⟨file, [.zero, .zero], 0, 0⟩)
  | .error _ => some none

/-- `cur` behind the entry that `readdir` returned last. -/
def nextCur (d : Dir) : Option Nat :=
  if d.num ≠ 0 then (d.buf[d.cur / sizeofDirent]?).map fun dirent => d.cur + dirent.reclen
  else some d.cur

def readdir (d : Dir) : Option (Option Dirent × Dir) := do
  let cur ← d.nextCur
  if d.num = 0 ∨ d.num ≤ cur then
    let (result, ds, file) ← d.file.dfsRomfsGetdents (512 - 1)
    let buf := ds ++ d.buf.drop ds.length
    if result ≤ 0 then some (none, ⟨file, buf, d.num, cur⟩)
    else some (buf[0]?, ⟨file, buf, result.toNat, 0⟩)
  else some (d.buf[cur / sizeofDirent]?, { d with cur := cur })

/-- `fd->pos - d->num + d->cur`. -/
def telldir (d : Dir) : BitVec 32 :=
  BitVec.ofNat 32 d.file.pos - BitVec.ofNat 32 d.num + BitVec.ofNat 32 d.cur

def seekdir (d : Dir) (offset : BitVec 32) : Dir :=
  let (answer, file) := d.file.dfsRomfsLseek offset
  if 0 ≤ answer.result then { d with file := file, num := 0, cur := 0 } else { d with file := file }

def rewinddir (d : Dir) : Dir := d.seekdir 0

def call (d : Dir) : DirCall → Option (DirAnswer × Dir)
  | .readdir => d.readdir.map fun (e, d) => (.entry e, d)
  | .telldir => some (.position d.telldir, d)
  | .seekdir offset => some (.done, d.seekdir offset)
  | .rewinddir => some (.done, d.rewinddir)

/-- The answers of the calls one after the other, and the `DIR` behind them. -/
def run (d : Dir) : List DirCall → Option (List DirAnswer × Dir)
  | [] => some ([], d)
  | c :: cs => do
    let (answer, d) ← d.call c
    let (answers, d) ← d.run cs
    some (answer :: answers, d)

/-- What the next `n` calls of `readdir` return. -/
def following (d : Dir) (n : Nat) : Option (List DirAnswer) :=
  (d.run (List.replicate n .readdir)).map Prod.fst

/-- Reading from here on gives each of the entries once, and then `NULL`. -/
def Enumerates (d : Dir) (entries : List RomfsDirent) : Prop :=
  ∀ m, d.following (entries.length + m) =
    some (entries.map (fun sub => .entry (some sub.dirent)) ++ List.replicate m (.entry none))

/-- Behind `seekdir` to the position told at `told`, reading goes on as it does there. -/
def Replays (told d : Dir) : Prop :=
  ∀ n, (d.seekdir told.telldir).following n = told.following n

/-- `telldir` finds no entry in the buffer; or it tells a position outside the folder, which
`seekdir` refuses, and the `DIR` is at the same place again. -/
def TellsPlace (told d : Dir) : Prop :=
  told.num = told.cur ∨ told.file.size < wordSub told.file.pos sizeofDirent ∧ d.file.pos = told.file.pos

end Dir

/-- The `DIR` stands in front of entry `pos` of the folder. -/
structure Dir.At (d : Dir) (folder : RomfsDirent) (pos : Nat) : Prop where
  dirent : d.file.dirent = folder
  size : d.file.size = folder.entries.length
  place : d.file.pos = pos
  inside : pos ≤ folder.entries.length
  buffer : ∃ r, d.buf = [r, .zero] ∧ (d.num = 0 ∧ d.cur = 0 ∨
    d.num = sizeofDirent ∧ (d.cur = 0 ∧ r.reclen = sizeofDirent ∨ d.cur = sizeofDirent))

section
variable {folder sub : RomfsDirent} {d told : Dir} {pos n : Nat}

/-- A folder as an image holds it. -/
structure RomfsDirent.Folder (folder : RomfsDirent) : Prop where
  check : folder.check = true
  type : folder.type = romfsDirentDir
  count : folder.entries.length < 4294967295

theorem RomfsFd.dfsRomfsGetdents_one (hfolder : folder.Folder) {file : RomfsFd}
    (hdirent : file.dirent = folder) :
    file.dfsRomfsGetdents (512 - 1) = (file.getdentsLoop 1).map fun (ds, file) =>
      ((ds.length * sizeofDirent : Int), ds, file) := by
  unfold RomfsFd.dfsRomfsGetdents
  rw [hdirent, if_pos hfolder.check, if_pos hfolder.type, if_neg (by decide)]
  show (file.getdentsLoop 1).bind _ = _
  cases file.getdentsLoop 1 <;> rfl

/-- What `readdir` has in its buffer is used up by the time it asks for more. -/
theorem Dir.At.nextCur (h : d.At folder pos) : ∃ cur, d.nextCur = some cur ∧
    (d.num = 0 ∧ cur = 0 ∨ d.num = sizeofDirent ∧ cur = sizeofDirent) := by
  unfold Dir.nextCur
  obtain ⟨r, hbuf, ⟨hnum, hcur⟩ | ⟨hnum, ⟨hcur, hreclen⟩ | hcur⟩⟩ := h.buffer
  · exact ⟨0, by rw [hnum, hcur]; rfl, .inl ⟨hnum, rfl⟩⟩
  · refine ⟨sizeofDirent, ?_, .inr ⟨hnum, rfl⟩⟩
    rw [hnum, hcur, hbuf, if_pos (by decide)]
    show some (0 + r.reclen) = _
    rw [hreclen]
    rfl
  · refine ⟨sizeofDirent, ?_, .inr ⟨hnum, rfl⟩⟩
    rw [hnum, hcur, hbuf]
    rfl

/-- `readdir` in front of an entry. -/
theorem Dir.At.readdir_entry (h : d.At folder pos) (hfolder : folder.Folder)
    (hsub : folder.entries[pos]? = some sub) :
    (sub.NameFits → ∃ d', d.readdir = some (some sub.dirent, d') ∧ d'.At folder (pos + 1)) ∧
      (¬ sub.NameFits → d.readdir = none) := by
  obtain ⟨cur, hcur, hused⟩ := h.nextCur
  have hlt : pos < folder.entries.length := (List.getElem?_eq_some_iff.mp hsub).1
  have hempty : d.num = 0 ∨ d.num ≤ cur := by omega
  have hloop : d.file.getdentsLoop 1 = if sub.NameFits then
      some ([sub.dirent], { d.file with pos := pos + 1 }) else none := by
    unfold RomfsFd.getdentsLoop
    have hfile : d.file.dirent.entries[d.file.pos]? = some sub := by rw [h.dirent, h.place, hsub]
    have hword : word (d.file.pos + 1) = pos + 1 := by
      rw [h.place]
      exact word_of_lt (by have := hfolder.count; omega)
    rw [if_pos (by rw [h.place, h.size]; exact hlt), hfile, hword]
    by_cases hfits : sub.NameFits
    · simp only [if_pos hfits, Option.bind_eq_bind, Option.bind_some]
      rfl
    · simp only [if_neg hfits, Option.bind_eq_bind, Option.bind_some]
  unfold Dir.readdir
  simp only [hcur, Option.bind_eq_bind, Option.bind_some, if_pos hempty,
    RomfsFd.dfsRomfsGetdents_one hfolder h.dirent, hloop]
  constructor
  · intro hfits
    obtain ⟨r, hbuf, -⟩ := h.buffer
    have hresult : (([sub.dirent].length : Int) * sizeofDirent) = sizeofDirent := by simp
    simp only [if_pos hfits, Option.map_some, Option.bind_some, hresult, Int.toNat_natCast, hbuf]
    refine ⟨_, if_neg (by decide), h.dirent, h.size, rfl, hlt, sub.dirent, rfl, .inr ⟨rfl, .inl ⟨rfl, rfl⟩⟩⟩
  · intro hlong
    rw [if_neg hlong]
    rfl

/-- `readdir` behind the last entry. -/
theorem Dir.At.readdir_end (h : d.At folder pos) (hfolder : folder.Folder)
    (hend : folder.entries[pos]? = none) : ∃ d', d.readdir = some (none, d') ∧ d'.At folder pos := by
  obtain ⟨cur, hcur, hused⟩ := h.nextCur
  have hle : folder.entries.length ≤ pos := List.getElem?_eq_none_iff.mp hend
  have hempty : d.num = 0 ∨ d.num ≤ cur := by omega
  have hloop : d.file.getdentsLoop 1 = some ([], d.file) := by
    unfold RomfsFd.getdentsLoop
    rw [if_neg (by rw [h.place, h.size]; omega)]
  unfold Dir.readdir
  simp only [hcur, Option.bind_eq_bind, Option.bind_some, if_pos hempty,
    RomfsFd.dfsRomfsGetdents_one hfolder h.dirent, hloop, Option.map_some]
  obtain ⟨r, hbuf, -⟩ := h.buffer
  refine ⟨_, if_pos (by decide), h.dirent, h.size, h.place, h.inside, r, hbuf, ?_⟩
  rcases hused with ⟨hnum, hcur⟩ | ⟨hnum, hcur⟩
  · exact .inl ⟨hnum, hcur⟩
  · exact .inr ⟨hnum, .inr hcur⟩

/-- `readdir` wherever the `DIR` stands. -/
theorem Dir.At.readdir (h : d.At folder pos) (hfolder : folder.Folder)
    (hfits : ∀ sub ∈ folder.entries, sub.NameFits) :
    ∃ d', d.readdir = some ((folder.entries[pos]?).map RomfsDirent.dirent, d') ∧
      d'.At folder (min (pos + 1) folder.entries.length) := by
  have hinside := h.inside
  cases hsub : folder.entries[pos]? with
  | none =>
    obtain ⟨d', hread, hat⟩ := h.readdir_end hfolder hsub
    have hle : folder.entries.length ≤ pos := List.getElem?_eq_none_iff.mp hsub
    refine ⟨d', hread, ?_⟩
    rwa [show min (pos + 1) folder.entries.length = pos by omega]
  | some sub =>
    obtain ⟨d', hread, hat⟩ := (h.readdir_entry hfolder hsub).1 (hfits sub (List.mem_of_getElem? hsub))
    have hlt : pos < folder.entries.length := (List.getElem?_eq_some_iff.mp hsub).1
    refine ⟨d', hread, ?_⟩
    rwa [show min (pos + 1) folder.entries.length = pos + 1 by omega]

theorem Dir.following_succ (d : Dir) (n : Nat) :
    d.following (n + 1) = d.readdir.bind fun (e, d) => (d.following n).map (.entry e :: ·) := by
  unfold Dir.following
  rw [List.replicate_succ, Dir.run]
  simp only [Dir.call, Option.bind_eq_bind]
  cases d.readdir with
  | none => rfl
  | some r =>
    obtain ⟨e, d'⟩ := r
    simp only [Option.map_some, Option.bind_some]
    cases d'.run (List.replicate n .readdir) <;> rfl

/-- Reading on gives what stands behind the position. -/
theorem Dir.At.following (h : d.At folder pos) (hfolder : folder.Folder)
    (hfits : ∀ sub ∈ folder.entries, sub.NameFits) (n : Nat) :
    d.following n = some ((List.range n).map fun i =>
      .entry ((folder.entries[pos + i]?).map RomfsDirent.dirent)) := by
  induction n generalizing d pos with
  | zero => rfl
  | succ n ih =>
    obtain ⟨d', hread, hat⟩ := h.readdir hfolder hfits
    have hinside := h.inside
    rw [Dir.following_succ, hread, List.range_succ_eq_map, List.map_cons, List.map_map]
    simp only [Option.bind_some, ih hat, Option.map_some]
    refine congrArg some (congrArg _ (List.map_congr_left fun i _ => ?_))
    simp only [Function.comp_apply]
    rcases Nat.lt_or_ge pos folder.entries.length with hlt | hge
    · rw [show min (pos + 1) folder.entries.length + i = pos + (i + 1) by omega]
    · rw [List.getElem?_eq_none (by omega), List.getElem?_eq_none (by omega)]

/-- Reading goes on differently from different positions. -/
theorem following_injective {a b : Nat} (ha : a ≤ folder.entries.length) (hb : b ≤ folder.entries.length)
    (h : ∀ n, (List.range n).map (fun i => DirAnswer.entry ((folder.entries[a + i]?).map RomfsDirent.dirent)) =
      (List.range n).map fun i => .entry ((folder.entries[b + i]?).map RomfsDirent.dirent)) : a = b := by
  have hat : ∀ i, (folder.entries[a + i]?).map RomfsDirent.dirent =
      (folder.entries[b + i]?).map RomfsDirent.dirent := by
    intro i
    have hlast := (List.map_inj_left.mp (h (i + 1))) i (List.mem_range.mpr (Nat.lt_succ_self i))
    exact DirAnswer.entry.inj hlast
  have hnone : ∀ i, folder.entries.length ≤ a + i ↔ folder.entries.length ≤ b + i := by
    intro i
    rw [← List.getElem?_eq_none_iff, ← List.getElem?_eq_none_iff,
      ← Option.map_eq_none_iff (f := RomfsDirent.dirent), hat, Option.map_eq_none_iff]
  have h1 := hnone (folder.entries.length - a)
  have h2 := hnone (folder.entries.length - b)
  omega

/-- `seekdir` moves to a position in the folder and refuses any other. -/
theorem Dir.At.seekdir (h : d.At folder pos) (offset : BitVec 32) :
    (d.seekdir offset).At folder (if offset.toNat ≤ folder.entries.length then offset.toNat else pos) := by
  obtain ⟨r, hbuf, hused⟩ := h.buffer
  unfold Dir.seekdir RomfsFd.dfsRomfsLseek
  rw [h.size]
  by_cases hin : offset.toNat ≤ folder.entries.length
  · simp only [if_pos hin]
    split
    · exact ⟨h.dirent, rfl, rfl, hin, r, hbuf, .inl ⟨rfl, rfl⟩⟩
    · exact ⟨h.dirent, rfl, rfl, hin, r, hbuf, hused⟩
  · simp only [if_neg hin]
    rw [if_neg (by decide)]
    exact ⟨h.dirent, h.size, h.place, h.inside, r, hbuf, hused⟩

/-- Each call leaves the `DIR` at some entry of the folder or behind the last one. -/
theorem Dir.At.call (h : d.At folder pos) (hfolder : folder.Folder)
    (hfits : ∀ sub ∈ folder.entries, sub.NameFits) (c : DirCall) :
    ∃ answer d' pos', d.call c = some (answer, d') ∧ d'.At folder pos' := by
  cases c with
  | readdir =>
    obtain ⟨d', hread, hat⟩ := h.readdir hfolder hfits
    have hcall : d.call .readdir = some (.entry ((folder.entries[pos]?).map RomfsDirent.dirent), d') := by
      show d.readdir.map _ = _
      rw [hread]
      rfl
    exact ⟨_, d', _, hcall, hat⟩
  | telldir => exact ⟨_, d, pos, rfl, h⟩
  | seekdir offset => exact ⟨_, _, _, rfl, h.seekdir offset⟩
  | rewinddir => exact ⟨_, _, _, rfl, h.seekdir 0⟩

theorem Dir.At.run (h : d.At folder pos) (hfolder : folder.Folder)
    (hfits : ∀ sub ∈ folder.entries, sub.NameFits) (calls : List DirCall) :
    ∃ answers d' pos', d.run calls = some (answers, d') ∧ d'.At folder pos' := by
  induction calls generalizing d pos with
  | nil => exact ⟨[], d, pos, rfl, h⟩
  | cons c calls ih =>
    obtain ⟨answer, d1, pos1, hcall, hat⟩ := h.call hfolder hfits c
    obtain ⟨answers, d2, pos2, hrun, hend⟩ := ih hat
    refine ⟨answer :: answers, d2, pos2, ?_, hend⟩
    simp only [Dir.run, hcall, Option.bind_eq_bind, Option.bind_some, hrun]

/-- With an entry in the buffer its bytes are taken off the number of the entry. -/
theorem Dir.At.telldir (h : told.At folder pos) (hfolder : folder.Folder) : told.telldir.toNat =
    if told.num = told.cur then pos else wordSub pos sizeofDirent := by
  have hcount := hfolder.count
  have hinside := h.inside
  obtain ⟨r, -, ⟨hnum, hcur⟩ | ⟨hnum, ⟨hcur, -⟩ | hcur⟩⟩ := h.buffer
  all_goals
    unfold Dir.telldir
    rw [hnum, hcur, h.place]
    simp [wordSub, sizeofDirent, BitVec.toNat_add, BitVec.toNat_sub]
    omega

/-- Reading goes on as it did at the position told when that is where `seekdir` leads. -/
theorem Dir.replays_iff {p : Nat} (hfolder : folder.Folder) (hfits : ∀ sub ∈ folder.entries, sub.NameFits)
    (htold : told.At folder pos) (h : d.At folder p) : told.Replays d ↔ told.TellsPlace d := by
  have hseek := h.seekdir told.telldir
  rw [htold.telldir hfolder] at hseek
  have hcount := hfolder.count
  have hinside := htold.inside
  have hat : told.Replays d ↔ (d.seekdir told.telldir).file.pos = pos := by
    unfold Dir.Replays
    simp only [hseek.following hfolder hfits, htold.following hfolder hfits, Option.some.injEq]
    rw [hseek.place]
    constructor
    · exact fun hsame => following_injective hseek.inside hinside hsame
    · intro hpos n
      rw [hpos]
  rw [hat, hseek.place]
  unfold Dir.TellsPlace
  rw [htold.size, htold.place, h.place]
  have hback : wordSub pos sizeofDirent ≠ pos := by
    unfold wordSub sizeofDirent
    omega
  by_cases hempty : told.num = told.cur
  · simp [hempty, hinside]
  · rw [if_neg hempty]
    by_cases hin : wordSub pos sizeofDirent ≤ folder.entries.length
    · rw [if_pos hin]
      constructor
      · exact fun hsame => absurd hsame hback
      · rintro (hsame | ⟨hout, -⟩)
        · exact absurd hsame hempty
        · exact absurd hin (Nat.not_le.mpr hout)
    · rw [if_neg hin]
      constructor
      · exact fun hsame => .inr ⟨Nat.not_le.mp hin, hsame⟩
      · rintro (hsame | ⟨-, hsame⟩)
        · exact absurd hsame hempty
        · exact hsame

/-- Where reading on meets no fault, the names it meets fit. -/
theorem Dir.At.fits_of_following (h : d.At folder pos) (hfolder : folder.Folder)
    (hread : (d.following n).isSome = true) :
    ∀ i < n, ∀ sub ∈ folder.entries[pos + i]?, sub.NameFits := by
  induction n generalizing d pos with
  | zero => exact fun i hi => absurd hi (Nat.not_lt_zero i)
  | succ n ih =>
    rw [Dir.following_succ] at hread
    intro i hi sub hsub
    have hlt : pos + i < folder.entries.length := (List.getElem?_eq_some_iff.mp hsub).1
    obtain ⟨next, hnext⟩ : ∃ next, folder.entries[pos]? = some next :=
      ⟨_, List.getElem?_eq_getElem (by omega)⟩
    have hhere := h.readdir_entry hfolder hnext
    have hfits : next.NameFits := by
      by_contra hlong
      rw [hhere.2 hlong] at hread
      simp at hread
    obtain ⟨d', hentry, hat⟩ := hhere.1 hfits
    rw [hentry] at hread
    cases i with
    | zero =>
      obtain rfl := Option.some.inj (hnext.symm.trans hsub)
      exact hfits
    | succ i =>
      refine ih hat (by simpa using hread) i (by omega) sub ?_
      rwa [show pos + 1 + i = pos + (i + 1) by omega]

theorem Dir.At.enumerates_iff (h : d.At folder 0) (hfolder : folder.Folder) :
    d.Enumerates folder.entries ↔ ∀ sub ∈ folder.entries, sub.NameFits := by
  constructor
  · intro hread sub hsub
    obtain ⟨i, hi, rfl⟩ := List.getElem_of_mem hsub
    have hread0 := hread 0
    refine h.fits_of_following hfolder (n := folder.entries.length) ?_ i hi _ ?_
    · rw [Nat.add_zero] at hread0
      rw [hread0]
      rfl
    · rw [Nat.zero_add]
      exact List.getElem?_eq_getElem hi
  · intro hfits m
    rw [h.following hfolder hfits]
    refine congrArg some (List.ext_getElem (by simp) fun i h1 h2 => ?_)
    simp only [List.getElem_map, List.getElem_range, Nat.zero_add]
    by_cases hi : i < folder.entries.length
    · rw [List.getElem_append_left (by simpa using hi), List.getElem_map, List.getElem?_eq_getElem hi]
      rfl
    · rw [List.getElem_append_right (by simpa using Nat.not_lt.mp hi), List.getElem_replicate,
        List.getElem?_eq_none (Nat.not_lt.mp hi)]
      rfl

theorem RomfsFd.open_directory {root : RomfsDirent} {path : CString} {file : RomfsFd}
    (hopen : RomfsFd.dfsRomfsOpen root oDirectory path = some (.ok file)) :
    file.dirent.type = romfsDirentDir := by
  unfold RomfsFd.dfsRomfsOpen at hopen
  split at hopen
  next =>
    rw [if_neg (by decide)] at hopen
    obtain ⟨r, -, hopen⟩ := Option.bind_eq_some_iff.mp hopen
    cases r with
    | none => cases hopen
    | some r =>
      simp only at hopen
      split at hopen
      next => cases hopen
      next =>
        split at hopen
        next => cases hopen
        next hfile =>
          obtain rfl := Except.ok.inj (Option.some.inj hopen)
          by_contra htype
          exact hfile ⟨htype, by decide⟩
  next => cases hopen

theorem RomfsImage.opendir_at (image : RomfsImage) (path : RomfsPath)
    (hopen : Dir.opendir image.root path.text = some (some d)) :
    d.file.dirent.Folder ∧ d.At d.file.dirent 0 := by
  unfold Dir.opendir at hopen
  obtain ⟨r, hfile, hopen⟩ := Option.bind_eq_some_iff.mp hopen
  cases r with
  | error e => cases Option.some.inj hopen
  | ok file =>
    obtain rfl := Option.some.inj (Option.some.inj hopen)
    obtain ⟨hreach, hsize, hpos⟩ := image.open_reaches path hfile
    have htype : file.dirent.type = romfsDirentDir := RomfsFd.open_directory hfile
    have hvalid := hreach.valid image.valid
    have hcheck := hvalid.check
    cases hvalid with
    | file hfile => rw [htype] at hfile; cases hfile
    | dir _ hlt hentries =>
      exact ⟨⟨hcheck, htype, by rw [hentries]; exact hlt⟩, rfl, by rw [hsize, hentries], hpos, Nat.zero_le _, .zero, rfl, .inl ⟨rfl, rfl⟩⟩

end

/-- Reading a folder gives every entry once if their names fit a `struct dirent`; and then, whatever is
called before `telldir` and between it and `seekdir`, reading goes on as it did there when the position
told is the place. -/
theorem directory_positions_iff (image : RomfsImage) (path : RomfsPath) {d : Dir}
    (hopen : Dir.opendir image.root path.text = some (some d)) :
    (d.Enumerates d.file.dirent.entries ↔ ∀ sub ∈ d.file.dirent.entries, sub.NameFits) ∧
      ((∀ sub ∈ d.file.dirent.entries, sub.NameFits) → ∀ before between, ∃ answers told answers' d',
        d.run before = some (answers, told) ∧ told.run (.telldir :: between) = some (answers', d') ∧
          (told.Replays d' ↔ told.TellsPlace d')) := by
  obtain ⟨hfolder, hat⟩ := image.opendir_at path hopen
  refine ⟨hat.enumerates_iff hfolder, fun hfits before between => ?_⟩
  obtain ⟨answers, told, pos, hbefore, htold⟩ := hat.run hfolder hfits before
  obtain ⟨answers', d', pos', hbetween, hend⟩ := htold.run hfolder hfits (.telldir :: between)
  exact ⟨answers, told, answers', d', hbefore, hbetween, Dir.replays_iff hfolder hfits htold hend⟩

def rootPath : RomfsPath := ⟨['/'], rfl, .inl rfl⟩

/-- The folder of one file, told before anything is read. -/
theorem smallImage_positions : ∃ d answers d',
    Dir.opendir smallImage.root rootPath.text = some (some d) ∧ d.Enumerates [smallFile] ∧
      d.run [.telldir, .readdir, .readdir] = some (answers, d') ∧ d.Replays d' := by
  have hopen : Dir.opendir smallImage.root rootPath.text =
      some (some ⟨⟨smallImage.root, 1, 0⟩, [.zero, .zero], 0, 0⟩) := rfl
  obtain ⟨hreads, hplaces⟩ := directory_positions_iff smallImage rootPath hopen
  have hfits : ∀ sub ∈ smallImage.root.entries, sub.NameFits := by
    intro sub hsub
    obtain rfl := List.mem_singleton.mp hsub
    decide
  obtain ⟨_, told, answers, d', hbefore, hbetween, hiff⟩ := hplaces hfits [] [.readdir, .readdir]
  obtain rfl := congrArg Prod.snd (Option.some.inj hbefore)
  exact ⟨_, answers, d', hopen, hreads.mpr hfits, hbetween, hiff.mpr (.inl rfl)⟩

def twoFiles : Dir :=
  ⟨⟨.mk romfsDirentDir ['/'] [] [.mk romfsDirentFile ['a'] [] [] 0, .mk romfsDirentFile ['b'] [] [] 0] 2, 2, 0⟩,
    [.zero, .zero], 0, 0⟩

/-- Told behind `a` and read to the end, `seekdir` does not lead back to `b`. -/
theorem secondFile_not_replayed : ∃ told d', Dir.opendir twoFiles.file.dirent ['/'] = some (some twoFiles) ∧
    twoFiles.run [.readdir] =
      some ([.entry (some ⟨dtReg, 1, sizeofDirent, ['a']⟩)], told) ∧
    told.run [.telldir, .readdir] =
      some ([.position (-259), .entry (some ⟨dtReg, 1, sizeofDirent, ['b']⟩)], d') ∧ ¬ told.Replays d' := by
  refine ⟨_, _, rfl, rfl, rfl, fun hreplays => ?_⟩
  exact absurd (hreplays 1) (by decide +kernel)

end RTThread
