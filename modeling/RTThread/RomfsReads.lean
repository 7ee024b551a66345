import Mathlib.Data.List.TakeWhile
import RTThread.ByteMemory
import RTThread.DfsNormalize
import RTThread.DfsOpenModel
import RTThread.Runs

namespace RTThread

def romfsDirentFile : Nat := 0

def romfsDirentDir : Nat := 1

/-- `struct romfs_dirent`; what `data` points to is read as bytes or as an array of entries. -/
inductive RomfsDirent where
  | mk (type : Nat) (name : CString) (bytes : List UInt8) (entries : List RomfsDirent) (size : Nat)

namespace RomfsDirent

def type : RomfsDirent → Nat
  | mk type _ _ _ _ => type

def name : RomfsDirent → CString
  | mk _ name _ _ _ => name

def bytes : RomfsDirent → List UInt8
  | mk _ _ bytes _ _ => bytes

def entries : RomfsDirent → List RomfsDirent
  | mk _ _ _ entries _ => entries

def size : RomfsDirent → Nat
  | mk _ _ _ _ size => size

/-- `check_dirent` answers 0. -/
def check (d : RomfsDirent) : Bool :=
  (d.type = romfsDirentFile ∨ d.type = romfsDirentDir) ∧ d.size ≠ 4294967295

/-- The search in one folder, of `n` entries from here on; the outer `none` is an access behind the
array, the inner one a `NULL`. -/
def searchFolder (subpath : CString) : Nat → List RomfsDirent → Option (Option RomfsDirent)
  | 0, _ => some none
  | _ + 1, [] => none
  | n + 1, d :: ds =>
    if d.check then
      if d.name = subpath then some (some d) else searchFolder subpath n ds
    else some none

/-- The `while` loop of `dfs_romfs_lookup`: `rest` begins at `subpath_end`. -/
def lookupLoop : Nat → List RomfsDirent → Nat → CString → CString →
    Option (Option (RomfsDirent × Nat))
  | 0, _, _, _, _ => none
  | fuel + 1, dirent, direntSize, subpath, rest => do
    match ← searchFolder subpath direntSize dirent with
    | none => some none
    | some d =>
      let rest := skipSlashes rest
      if rest = [] then some (some (d, d.size))
      else if d.type = romfsDirentDir then
        lookupLoop fuel d.entries d.size (rest.takeWhile (· != '/')) (rest.dropWhile (· != '/'))
      else some none

def dfsRomfsLookup (root : RomfsDirent) (path : CString) : Option (Option (RomfsDirent × Nat)) :=
  if root.check then
    if path = ['/'] then some (some (root, root.size))
    else
      let rest := skipSlashes path
      lookupLoop (path.length + 1) root.entries root.size (rest.takeWhile (· != '/'))
        (rest.dropWhile (· != '/'))
  else some none

end RomfsDirent

/-- What the romfs operations use of `struct dfs_fd`. -/
structure RomfsFd where
  dirent : RomfsDirent
  size : Nat
  pos : Nat

/-- The value returned, and the bytes that a read put into the buffer. -/
structure RomfsAnswer where
  result : Int
  bytes : List UInt8
deriving DecidableEq, Repr

inductive RomfsCall where
  | read (count : Nat)
  | lseek (offset : BitVec 32)
deriving DecidableEq, Repr

namespace RomfsFd

/-- `O_CREAT | O_WRONLY | O_APPEND | O_TRUNC | O_RDWR`. -/
def writing : Nat := 0o3103

def dfsRomfsOpen (root : RomfsDirent) (flags : Nat) (path : CString) : Option (Except Int RomfsFd) :=
  if root.check then
    if flags &&& writing ≠ 0 then some (.error (-22))
    else do
      match ← root.dfsRomfsLookup path with
      | none => some (.error (-2))
      | some (dirent, size) =>
        if dirent.type = romfsDirentDir ∧ flags &&& oDirectory = 0 then some (.error (-2))
        else if dirent.type ≠ romfsDirentDir ∧ flags &&& oDirectory ≠ 0 then some (.error (-2))
        else some (.ok ⟨dirent, size, 0⟩)
  else some (.error (-5))

/-- `none` is an access behind the data. -/
def dfsRomfsRead (file : RomfsFd) (count : Nat) : Option (RomfsAnswer × RomfsFd) :=
  if file.dirent.check then
    let rest := wordSub file.size file.pos
    let length := if count < rest then count else rest
    if 0 < length ∧ file.dirent.bytes.length < file.pos + length then none
    else some (⟨Int.bmod length 4294967296, (file.dirent.bytes.drop file.pos).take length⟩,
      { file with pos := word (file.pos + length) })
  else some (⟨-5, []⟩, file)

/-- The comparison with `size` is one of unsigned numbers. -/
def dfsRomfsLseek (file : RomfsFd) (offset : BitVec 32) : RomfsAnswer × RomfsFd :=
  if offset.toNat ≤ file.size then
    (⟨Int.bmod offset.toNat 4294967296, []⟩, { file with pos := offset.toNat })
  else (⟨-5, []⟩, file)

def call (file : RomfsFd) : RomfsCall → Option (RomfsAnswer × RomfsFd)
  | .read count => file.dfsRomfsRead count
  | .lseek offset => some (file.dfsRomfsLseek offset)

/-- The answers of the calls one after the other, and the file behind them. -/
def run (file : RomfsFd) : List RomfsCall → Option (List RomfsAnswer × RomfsFd)
  | [] => some ([], file)
  | c :: cs => do
    let (answer, file) ← file.call c
    let (answers, file) ← file.run cs
    some (answer :: answers, file)

end RomfsFd

/-- The entry is reached from the first one by these names. -/
inductive RomfsReaches : RomfsDirent → List CString → RomfsDirent → Prop where
  | here (d : RomfsDirent) : RomfsReaches d [] d
  | enter {d e f : RomfsDirent} {names : List CString} (hdir : d.type = romfsDirentDir)
      (hentry : e ∈ d.entries) (hreach : RomfsReaches e names f) :
      RomfsReaches d (e.name :: names) f

/-- A file has the bytes of its size, a folder the entries, each with a name of its own. -/
inductive RomfsValid : RomfsDirent → Prop where
  | file {d : RomfsDirent} (htype : d.type = romfsDirentFile) (hsize : d.size < 4294967295)
      (hbytes : d.bytes.length = d.size) : RomfsValid d
  | dir {d : RomfsDirent} (htype : d.type = romfsDirentDir) (hsize : d.size < 4294967295)
      (hentries : d.entries.length = d.size) (hdistinct : (d.entries.map RomfsDirent.name).Nodup)
      (hnames : ∀ e ∈ d.entries, e.name ≠ [] ∧ '/' ∉ e.name)
      (hvalid : ∀ e ∈ d.entries, RomfsValid e) : RomfsValid d

/-- The image: its root is a folder. -/
structure RomfsImage where
  root : RomfsDirent
  valid : RomfsValid root
  dir : root.type = romfsDirentDir

def pathNames (path : CString) : List CString := (path.splitOn '/').filter (· ≠ [])

/-- An absolute path that is `/` or names something. -/
structure RomfsPath where
  text : CString
  absolute : text.head? = some '/'
  named : text = ['/'] ∨ pathNames text ≠ []

/-- The calls on a file of these bytes: a read gives those from the position on, at most `count`. -/
def romfsSpec (data : List UInt8) (pos : Nat) : RomfsCall → RomfsAnswer × Nat
  | .read count =>
    let piece := (data.take (min (pos + count) data.length)).drop pos
    (⟨Int.bmod piece.length 4294967296, piece⟩, pos + piece.length)
  | .lseek offset =>
    if offset.toNat ≤ data.length then (⟨Int.bmod offset.toNat 4294967296, []⟩, offset.toNat)
    else (⟨-5, []⟩, pos)

section
variable {d e : RomfsDirent} {entries : List RomfsDirent} {path rest subpath : CString}

theorem RomfsValid.check (h : RomfsValid d) : d.check = true := by
  unfold RomfsDirent.check
  cases h with
  | file htype hsize => simp [htype, Nat.ne_of_lt hsize]
  | dir htype hsize => simp [htype, Nat.ne_of_lt hsize]

theorem searchFolder_valid (hvalid : ∀ e ∈ entries, RomfsValid e) :
    RomfsDirent.searchFolder subpath entries.length entries = some (entries.find? (·.name = subpath)) := by
  induction entries with
  | nil => rfl
  | cons e entries ih =>
    have hcheck := (hvalid e List.mem_cons_self).check
    rw [List.length_cons, RomfsDirent.searchFolder, if_pos hcheck, List.find?_cons]
    by_cases hname : e.name = subpath
    · simp [hname]
    · rw [if_neg hname, ih fun e he => hvalid e (List.mem_cons_of_mem _ he)]
      simp [hname]

theorem pathNames_separator (s : CString) : pathNames ('/' :: s) = pathNames s := by
  unfold pathNames
  rw [splitOn_separator]
  simp

theorem pathNames_skipSlashes (s : CString) : pathNames (skipSlashes s) = pathNames s := by
  induction s with
  | nil => rfl
  | cons x s ih =>
    by_cases hx : x = '/'
    · subst hx
      rw [show skipSlashes ('/' :: s) = skipSlashes s by simp [skipSlashes], ih, pathNames_separator]
    · rw [show skipSlashes (x :: s) = x :: s by simp [skipSlashes, hx]]

theorem takeWhile_component {c : CString} (hc : '/' ∉ c) (rest : CString) :
    (c ++ '/' :: rest).takeWhile (· != '/') = c ∧
      (c ++ '/' :: rest).dropWhile (· != '/') = '/' :: rest := by
  have hall : ∀ x ∈ c, (x != '/') = true := by
    intro x hx
    simp only [bne_iff_ne, ne_eq]
    rintro rfl
    exact hc hx
  constructor
  · rw [List.takeWhile_append_of_pos hall]
    simp
  · rw [List.dropWhile_append_of_pos hall]
    simp

theorem skipSlashes_head (s : CString) : (skipSlashes s).head? ≠ some '/' := by
  intro h
  have hfirst := List.head?_dropWhile_not (· == '/') s
  rw [show s.dropWhile (· == '/') = skipSlashes s from rfl, h] at hfirst
  simp at hfirst

/-- Behind its separators a path is empty, or it begins with a name and what is behind it. -/
theorem pathNames_next (s : CString) : (skipSlashes s = [] ∧ pathNames s = []) ∨
    (skipSlashes s ≠ [] ∧ pathNames s = (skipSlashes s).takeWhile (· != '/') ::
        pathNames ((skipSlashes s).dropWhile (· != '/')) ∧
      ((skipSlashes s).dropWhile (· != '/')).length < s.length) := by
  rw [← pathNames_skipSlashes s]
  have hlen := skipSlashes_length s
  have hhead := skipSlashes_head s
  rcases component_cases (skipSlashes s) with ⟨hnone, hsplit⟩ | ⟨c, rest, heq, hc, hsplit⟩
  · by_cases hnil : skipSlashes s = []
    · left
      rw [hnil]
      exact ⟨rfl, rfl⟩
    · right
      have hall : ∀ x ∈ skipSlashes s, (x != '/') = true := by
        intro x hx
        simp only [bne_iff_ne, ne_eq]
        rintro rfl
        exact hnone hx
      have htake : (skipSlashes s).takeWhile (· != '/') = skipSlashes s := List.takeWhile_eq_self_iff.mpr hall
      have hdrop : (skipSlashes s).dropWhile (· != '/') = [] := List.dropWhile_eq_nil_iff.mpr hall
      have hpos := List.length_pos_iff.mpr hnil
      rw [htake, hdrop]
      refine ⟨hnil, ?_, ?_⟩
      · rw [pathNames, hsplit, List.filter_cons_of_pos (by simpa using hnil)]
        rfl
      · rw [List.length_nil]
        omega
  · right
    have hne : c ≠ [] := by
      rintro rfl
      rw [heq] at hhead
      exact hhead rfl
    obtain ⟨htake, hdrop⟩ := takeWhile_component hc rest
    have hlength := congrArg List.length heq
    rw [List.length_append, List.length_cons] at hlength
    rw [heq, htake, hdrop]
    refine ⟨by simp, ?_, ?_⟩
    · rw [pathNames_separator, pathNames, ← heq, hsplit, List.filter_cons_of_pos (by simpa using hne)]
      rfl
    · rw [List.length_cons]
      have hpos := List.length_pos_iff.mpr hne
      omega

theorem RomfsReaches.of_nil (h : RomfsReaches d [] e) : e = d := by
  cases h
  rfl

/-- In a folder whose names are distinct, the entry found is the only way on. -/
theorem romfsReaches_cons {names : List CString} (hvalid : RomfsValid d) (hdir : d.type = romfsDirentDir) :
    RomfsReaches d (subpath :: names) e ↔
      ∃ f, d.entries.find? (·.name = subpath) = some f ∧ RomfsReaches f names e := by
  constructor
  · intro h
    cases h with
    | @enter _ f _ _ _ hentry hreach =>
      cases hvalid with
      | file htype => rw [htype] at hdir; cases hdir
      | dir _ _ _ hdistinct =>
        refine ⟨f, ?_, hreach⟩
        cases hfound : d.entries.find? (·.name = f.name) with
        | none =>
          have hnone := List.find?_eq_none.mp hfound f hentry
          simp at hnone
        | some g =>
          have hname : g.name = f.name := by simpa using List.find?_some hfound
          have hsame := List.inj_on_of_nodup_map hdistinct (List.mem_of_find?_eq_some hfound) hentry hname
          rw [hsame]
  · rintro ⟨f, hfound, hreach⟩
    obtain rfl : f.name = subpath := by simpa using List.find?_some hfound
    exact .enter hdir (List.mem_of_find?_eq_some hfound) hreach

theorem RomfsReaches.valid {names : List CString} (h : RomfsReaches d names e) (hvalid : RomfsValid d) :
    RomfsValid e := by
  induction h with
  | here => exact hvalid
  | enter hdir hentry _ ih =>
    cases hvalid with
    | file htype => rw [htype] at hdir; cases hdir
    | dir _ _ _ _ _ hentries => exact ih (hentries _ hentry)

theorem romfsReaches_file {names : List CString} {c : CString} (hdir : d.type ≠ romfsDirentDir) :
    ¬ RomfsReaches d (c :: names) e := by
  intro h
  cases h with
  | enter htype => exact hdir htype

/-- The loop follows the names from a folder on. -/
theorem lookupLoop_reaches (fuel : Nat) (hvalid : RomfsValid d) (hdir : d.type = romfsDirentDir)
    (hfuel : rest.length < fuel) :
    ∃ r : Option RomfsDirent,
      RomfsDirent.lookupLoop fuel d.entries d.size subpath rest = some (r.map fun e => (e, e.size)) ∧
        ∀ e, r = some e ↔ RomfsReaches d (subpath :: pathNames rest) e := by
  induction fuel generalizing d subpath rest with
  | zero => omega
  | succ fuel ih =>
    have hsearch : RomfsDirent.searchFolder subpath d.size d.entries =
        some (d.entries.find? (·.name = subpath)) := by
      cases hvalid with
      | file htype => rw [htype] at hdir; cases hdir
      | dir _ _ hentries _ _ hvalid =>
        rw [← hentries]
        exact searchFolder_valid hvalid
    rw [RomfsDirent.lookupLoop, hsearch]
    simp only [Option.bind_eq_bind, Option.bind_some]
    cases hfound : d.entries.find? (·.name = subpath) with
    | none =>
      refine ⟨none, rfl, fun e => ?_⟩
      rw [romfsReaches_cons hvalid hdir, hfound]
      simp
    | some f =>
      have hreach : ∀ names e, RomfsReaches d (subpath :: names) e ↔ RomfsReaches f names e := by
        intro names e
        rw [romfsReaches_cons hvalid hdir, hfound]
        simp
      have hf : RomfsValid f := ((hreach [] f).mpr (.here f)).valid hvalid
      simp only [hreach]
      rcases pathNames_next rest with ⟨hend, hnames⟩ | ⟨hmore, hnames, hlen⟩
      · refine ⟨some f, if_pos hend, fun e => ?_⟩
        rw [hnames]
        constructor
        · intro h
          obtain rfl := Option.some.inj h
          exact .here _
        · intro h
          rw [h.of_nil]
      · simp only [if_neg hmore]
        rw [hnames]
        by_cases hfolder : f.type = romfsDirentDir
        · simp only [if_pos hfolder]
          exact ih hf hfolder (by omega)
        · simp only [if_neg hfolder]
          refine ⟨none, rfl, fun e => ?_⟩
          simp [romfsReaches_file hfolder]

end

section
variable {file : RomfsFd} {pos : Nat} {data : List UInt8}

/-- The file as it is opened, or moved. -/
def RomfsFd.Opened (file : RomfsFd) (data : List UInt8) (pos : Nat) : Prop :=
  file.dirent.check = true ∧ file.dirent.bytes = data ∧ file.size = data.length ∧
    data.length < 4294967295 ∧ file.pos = pos ∧ pos ≤ data.length

/-- A call answers as specified and leaves the file at the specified position. -/
theorem romfsCall_spec (h : file.Opened data pos) (c : RomfsCall) :
    ∃ file', file.call c = some ((romfsSpec data pos c).1, file') ∧
      file'.Opened data (romfsSpec data pos c).2 ∧ file'.dirent = file.dirent := by
  obtain ⟨hcheck, hbytes, hsize, hlt, hpos, hle⟩ := h
  cases c with
  | read count =>
    have hrest : wordSub file.size pos = data.length - pos := by
      rw [hsize]
      exact wordSub_of_le (by omega) hle
    have hlength : (if count < data.length - pos then count else data.length - pos) =
        min (pos + count) data.length - pos := by
      split <;> omega
    have hpiece : (data.drop pos).take (min (pos + count) data.length - pos) =
        (data.take (min (pos + count) data.length)).drop pos := by
      rw [List.drop_take]
    have hlen : ((data.take (min (pos + count) data.length)).drop pos).length =
        min (pos + count) data.length - pos := by
      rw [List.length_drop, List.length_take]
      omega
    have hword : word (pos + (min (pos + count) data.length - pos)) =
        pos + (min (pos + count) data.length - pos) := word_of_lt (by omega)
    unfold romfsSpec
    simp only [RomfsFd.call, RomfsFd.dfsRomfsRead, if_pos hcheck, hrest, hlength, hbytes, hpos, hpiece, hlen, hword]
    rw [if_neg (by omega)]
    exact ⟨_, rfl, ⟨hcheck, hbytes, hsize, hlt, rfl, by omega⟩, rfl⟩
  | lseek offset =>
    have hlseek : file.call (.lseek offset) = some (file.dfsRomfsLseek offset) := rfl
    unfold romfsSpec
    rw [hlseek]
    unfold RomfsFd.dfsRomfsLseek
    by_cases hin : offset.toNat ≤ data.length
    · rw [if_pos (by omega)]
      simp only [if_pos hin]
      exact ⟨_, rfl, ⟨hcheck, hbytes, hsize, hlt, rfl, hin⟩, rfl⟩
    · rw [if_neg (by omega)]
      simp only [if_neg hin]
      exact ⟨_, rfl, ⟨hcheck, hbytes, hsize, hlt, hpos, hle⟩, rfl⟩

theorem romfsRun_spec (h : file.Opened data pos) (calls : List RomfsCall) :
    ∃ file', file.run calls = some ((runAnswers (romfsSpec data) pos calls).1, file') ∧
      file'.Opened data (runAnswers (romfsSpec data) pos calls).2 := by
  induction calls generalizing file pos with
  | nil => exact ⟨file, rfl, h⟩
  | cons c calls ih =>
    obtain ⟨file1, hcall, hopened, -⟩ := romfsCall_spec h c
    obtain ⟨file2, hrun, hend⟩ := ih hopened
    refine ⟨file2, ?_, hend⟩
    simp only [RomfsFd.run, hcall, Option.bind_eq_bind, Option.bind_some, hrun]
    rfl

end

theorem RomfsImage.lookup_reaches (image : RomfsImage) (path : RomfsPath) :
    ∃ r : Option RomfsDirent,
      image.root.dfsRomfsLookup path.text = some (r.map fun e => (e, e.size)) ∧
        ∀ e, r = some e ↔ RomfsReaches image.root (pathNames path.text) e := by
  unfold RomfsDirent.dfsRomfsLookup
  rw [if_pos image.valid.check]
  by_cases hroot : path.text = ['/']
  · refine ⟨some image.root, if_pos hroot, fun e => ?_⟩
    rw [hroot]
    constructor
    · intro h
      obtain rfl := Option.some.inj h
      exact .here _
    · intro h
      rw [RomfsReaches.of_nil h]
  · rw [if_neg hroot]
    rcases pathNames_next path.text with ⟨-, hnames⟩ | ⟨-, hnames, hlen⟩
    · exact absurd hnames (path.named.resolve_left hroot)
    · rw [hnames]
      exact lookupLoop_reaches _ image.valid image.dir (by omega)

theorem RomfsImage.open_reaches (image : RomfsImage) (path : RomfsPath) {flags : Nat} {file : RomfsFd}
    (hopen : RomfsFd.dfsRomfsOpen image.root flags path.text = some (.ok file)) :
    RomfsReaches image.root (pathNames path.text) file.dirent ∧ file.size = file.dirent.size ∧
      file.pos = 0 := by
  obtain ⟨r, hlookup, hreach⟩ := image.lookup_reaches path
  unfold RomfsFd.dfsRomfsOpen at hopen
  rw [if_pos image.valid.check, hlookup] at hopen
  split at hopen
  next => cases hopen
  next =>
    cases r with
    | none => cases hopen
    | some e =>
      simp only [Option.map_some, Option.bind_eq_bind, Option.bind_some] at hopen
      split at hopen
      next => cases hopen
      next =>
        split at hopen
        next => cases hopen
        next =>
          obtain rfl := Except.ok.inj (Option.some.inj hopen)
          exact ⟨(hreach e).mp rfl, rfl, rfl⟩

/-- The lookup of a path returns what its names lead to, and `NULL` where they lead to nothing; the
calls on a file opened read its bytes from where they stand. -/
theorem romfs_reads_back (image : RomfsImage) (path : RomfsPath) :
    (∃ r : Option RomfsDirent,
      image.root.dfsRomfsLookup path.text = some (r.map fun e => (e, e.size)) ∧
        ∀ e, r = some e ↔ RomfsReaches image.root (pathNames path.text) e) ∧
    ∀ flags file, RomfsFd.dfsRomfsOpen image.root flags path.text = some (.ok file) →
      RomfsReaches image.root (pathNames path.text) file.dirent ∧
        (file.dirent.type = romfsDirentFile → ∀ calls, ∃ file',
          file.run calls = some ((runAnswers (romfsSpec file.dirent.bytes) 0 calls).1, file') ∧
            file'.pos = (runAnswers (romfsSpec file.dirent.bytes) 0 calls).2) := by
  refine ⟨image.lookup_reaches path, fun flags file hopen => ?_⟩
  obtain ⟨hreach, hsize, hpos⟩ := image.open_reaches path hopen
  refine ⟨hreach, fun htype calls => ?_⟩
  have hvalid := hreach.valid image.valid
  have hcheck := hvalid.check
  cases hvalid with
  | dir hdir => rw [htype] at hdir; cases hdir
  | file _ hlt hbytes =>
    have hopened : file.Opened file.dirent.bytes 0 :=
      ⟨hcheck, rfl, by rw [hsize, hbytes], by omega, hpos, Nat.zero_le _⟩
    obtain ⟨file', hrun, hend⟩ := romfsRun_spec hopened calls
    exact ⟨file', hrun, hend.2.2.2.2.1⟩

/-- A folder with the file `a` of three bytes. -/
def smallFile : RomfsDirent := .mk romfsDirentFile ['a'] [1, 2, 3] [] 3

def smallImage : RomfsImage where
  root := .mk romfsDirentDir ['/'] [] [smallFile] 1
  valid := by
    refine .dir rfl (by decide) rfl (by simp [RomfsDirent.entries]) ?_ ?_
    · intro e he
      obtain rfl := List.mem_singleton.mp he
      exact ⟨by decide, by decide⟩
    · intro e he
      obtain rfl := List.mem_singleton.mp he
      exact .file rfl (by decide) rfl
  dir := rfl

def smallPath : RomfsPath := ⟨['/', 'a'], rfl, .inr (by decide)⟩

/-- The file read from its second byte on. -/
theorem smallImage_reads_back : ∃ file file',
    RomfsFd.dfsRomfsOpen smallImage.root 0 smallPath.text = some (.ok file) ∧
      file.run [.lseek 1, .read 8] = some ([⟨1, []⟩, ⟨2, [2, 3]⟩], file') := by
  have hopen : RomfsFd.dfsRomfsOpen smallImage.root 0 smallPath.text =
      some (.ok ⟨smallFile, 3, 0⟩) := rfl
  have hspec : (runAnswers (romfsSpec [1, 2, 3]) 0 [.lseek 1, .read 8]).1 = [⟨1, []⟩, ⟨2, [2, 3]⟩] := by
    decide +kernel
  have hread := ((romfs_reads_back smallImage smallPath).2 0 _ hopen).2 rfl [.lseek 1, .read 8]
  obtain ⟨file', hrun, -⟩ := hread
  refine ⟨_, file', hopen, ?_⟩
  rw [hrun, ← hspec]
  rfl

end RTThread
