import RTThread.CommonPrefixes
import RTThread.FinshLexer
import RTThread.MshSplit

namespace RTThread

/-- `FINSH_CMD_SIZE` -/
def finshCmdSize : Nat := 80

/-- The size of `full_path` in `msh_auto_complete_path`, and `DFS_PATH_MAX`. -/
def fullPathSize : Nat := 256

def slash : UInt8 := 47

def space : UInt8 := 32

/-- What completion reads: the names of the table of system calls, which are C identifiers, whether
`rt_malloc` has a block for `full_path`, the working directory, and what `opendir` and `readdir` find
under a path. -/
structure MshWorld where
  syscalls : List (List UInt8)
  memory : Bool
  workingDirectory : List UInt8
  entries : List UInt8 → Option (List (List UInt8))
  identifiers : ∀ name ∈ syscalls, ∀ c ∈ name, isSeparator c = false
  directoryText : workingDirectory ≠ [] ∧ 0 ∉ workingDirectory ∧ workingDirectory.length < fullPathSize
  entryTexts : ∀ path names, entries path = some names → ∀ name ∈ names, 0 ∉ name ∧ name.length < fullPathSize

/-- `shell->line` while it holds a string. -/
structure MshLine where
  bytes : List UInt8
  size : bytes.length = finshCmdSize
  ended : 0 ∈ bytes

/-- Bytes written into an array; `none` is a write behind its end. -/
def writeBytes (line : List UInt8) (start : Nat) (bytes : List UInt8) : Option (List UInt8) :=
  if start + bytes.length ≤ line.length then some (line.take start ++ bytes ++ line.drop (start + bytes.length))
  else none

/-- `str_common` -/
def strCommon (str1 str2 : List UInt8) : Nat := commonLength str1 str2

/-- A turn of the loops over the candidates: `min_length` and the first name that has matched. -/
def candidateTurn (common : List UInt8 → List UInt8 → Nat) (word : List UInt8)
    (s : Nat × Option (List UInt8)) (name : List UInt8) : Nat × Option (List UInt8) :=
  if word.isPrefixOf name then
    let (minLength, saved) := if s.1 = 0 then (name.length, name) else (s.1, s.2.getD [])
    let length := common saved name
    (if length < minLength then length else minLength, some saved)
  else s

/-- The loop of `msh_auto_complete_path` that sets `index` behind every slash. -/
def indexLoop : List UInt8 → Nat → Nat → Nat
  | [], _, index => index
  | c :: path, ptr, index => indexLoop path (ptr + 1) (if c = slash then ptr + 1 else index)

/-- The working directory with a slash behind it, or nothing before an absolute path. -/
def pathRoot (w : MshWorld) (path : List UInt8) : List UInt8 :=
  if path.head? = some slash then []
  else if w.workingDirectory.getLast? = some slash then w.workingDirectory
  else w.workingDirectory ++ [slash]

/-- `msh_auto_complete_path` on the path that starts at `start` in the line. What it prints is left out. -/
def mshAutoCompletePath (w : MshWorld) (line : List UInt8) (start : Nat) : Option (List UInt8) :=
  let path := cText (line.drop start)
  if w.memory = false then some line
  else
    let root := pathRoot w path
    if fullPathSize ≤ root.length then none
    else
      let index := indexLoop path 0 0
      let fullPath := root ++ path.take index
      if fullPathSize ≤ fullPath.length then none
      else
        match w.entries fullPath with
        | none => some line
        | some names =>
          let word := path.drop index
          if word = [] then some line
          else
            let (minLength, saved) :=
              names.foldl (candidateTurn (fun saved name => strCommon name saved) word) (0, none)
            if minLength ≠ 0 then
              writeBytes line (start + index) ((saved.getD []).take minLength ++ [0])
            else some line

/-- The loop of `msh_auto_complete` that looks back for a blank; it stops before the first character. -/
def blankLoop (text : List UInt8) : Nat → Option Nat
  | 0 => none
  | ptr + 1 => if text[ptr + 1]? = some space then some (ptr + 1) else blankLoop text ptr

def cmdMark : List UInt8 := "__cmd_".toUTF8.toList

/-- The names of the commands, behind `__cmd_`. -/
def mshCommands (w : MshWorld) : List (List UInt8) :=
  w.syscalls.filterMap fun name => if cmdMark.isPrefixOf name then some (name.drop 6) else none

/-- `msh_auto_complete`, built with `RT_USING_DFS` and without `RT_USING_MODULE`. -/
def mshAutoComplete (w : MshWorld) (line : List UInt8) : Option (List UInt8) := do
  let text ← cString line
  if text = [] then some line
  else
    let line ← match blankLoop text text.length with
      | some ptr => mshAutoCompletePath w line (ptr + 1)
      | none => some line
    let text ← cString line
    let (minLength, nameptr) := (mshCommands w).foldl (candidateTurn strCommon text) (0, none)
    match nameptr with
    | some name => writeBytes line 0 (name.take minLength)
    | none => some line

/-- What of a text stands up to the last `b`, which is taken along. -/
def upToLast (b : UInt8) : List UInt8 → List UInt8
  | [] => []
  | c :: text => if b ∈ text then c :: upToLast b text else if c = b then [c] else []

def behindLast (b : UInt8) (text : List UInt8) : List UInt8 := text.drop (upToLast b text).length

/-- What stands before the word that is completed: behind a blank this is the last name of a path. -/
def completedLead (text : List UInt8) : List UInt8 :=
  if space ∈ text then upToLast space text ++ upToLast slash (behindLast space text) else []

def completedWord (text : List UInt8) : List UInt8 :=
  if space ∈ text then behindLast slash (behindLast space text) else text

/-- The directory of the path behind the last blank. -/
def completedDirectory (w : MshWorld) (text : List UInt8) : List UInt8 :=
  pathRoot w (behindLast space text) ++ upToLast slash (behindLast space text)

/-- The names that begin with the word: of commands for the first word, else of a directory. -/
def candidateNames (w : MshWorld) (text : List UInt8) : List (List UInt8) :=
  (if space ∈ text then (w.entries (completedDirectory w text)).getD [] else mshCommands w).filter
    fun name => (completedWord text).isPrefixOf name

/-- The line that completion is to leave; for an empty word the names are only listed. -/
def completion (w : MshWorld) (text : List UInt8) : List UInt8 :=
  if completedWord text = [] ∨ candidateNames w text = [] then text
  else completedLead text ++ longestCommon (candidateNames w text)

/-- The line is completed inside its array. -/
def TabRight (w : MshWorld) (line : MshLine) : Prop :=
  ∃ line', mshAutoComplete w line.bytes = some line' ∧ line'.length = finshCmdSize ∧
    cString line' = some (completion w (cText line.bytes))

/-- The completed line has room and, where only a name is copied, a NUL behind it; a path is looked
at unless its blank is the first character of the line, and then it has room in `full_path`. -/
def CompletionFits (w : MshWorld) (line : MshLine) : Prop :=
  let text := cText line.bytes
  if space ∈ text then
    if w.memory ∧ upToLast space text ≠ [space] then
      (completedDirectory w text).length < fullPathSize ∧ (completion w text).length < finshCmdSize
    else completion w text = text
  else line.bytes[(completion w text).length]? = some 0

instance (w : MshWorld) (line : MshLine) : Decidable (CompletionFits w line) := by
  unfold CompletionFits
  infer_instance

section
variable {b c : UInt8} {text lead rest path : List UInt8} {w : MshWorld}

theorem upToLast_not_mem (h : b ∉ text) : upToLast b text = [] := by
  cases text with
  | nil => rfl
  | cons c text =>
    obtain ⟨hc, htext⟩ := not_or.mp (mt List.mem_cons.mpr h)
    unfold upToLast
    rw [if_neg htext, if_neg (Ne.symm hc)]

theorem upToLast_append (h : b ∉ rest) : upToLast b (lead ++ b :: rest) = lead ++ [b] := by
  induction lead with
  | nil =>
    show upToLast b (b :: rest) = [b]
    unfold upToLast
    rw [if_neg h, if_pos rfl]
  | cons c lead ih =>
    show upToLast b (c :: (lead ++ b :: rest)) = _
    unfold upToLast
    rw [if_pos (by simp), ih]
    rfl

theorem behindLast_append (h : b ∉ rest) : behindLast b (lead ++ b :: rest) = rest := by
  unfold behindLast
  rw [upToLast_append h]
  simp

theorem behindLast_not_mem (h : b ∉ text) : behindLast b text = text := by
  unfold behindLast
  rw [upToLast_not_mem h]
  rfl

/-- A text with a `b` is cut at the last one. -/
theorem cut_at_last (h : b ∈ text) : ∃ lead rest, text = lead ++ b :: rest ∧ b ∉ rest := by
  obtain ⟨as, bs, heq, hnot⟩ := List.eq_append_cons_of_mem (List.mem_reverse.mpr h)
  have htext := congrArg List.reverse heq
  rw [List.reverse_reverse] at htext
  refine ⟨bs.reverse, as.reverse, ?_, ?_⟩
  · rw [htext]
    simp
  · simpa using hnot

theorem upToLast_behindLast (b : UInt8) (text : List UInt8) : upToLast b text ++ behindLast b text = text := by
  by_cases h : b ∈ text
  · obtain ⟨lead, rest, rfl, hrest⟩ := cut_at_last h
    rw [upToLast_append hrest, behindLast_append hrest]
    simp
  · rw [upToLast_not_mem h, behindLast_not_mem h]
    rfl

theorem indexLoop_eq (path : List UInt8) (ptr index : Nat) :
    indexLoop path ptr index = if slash ∈ path then ptr + (upToLast slash path).length else index := by
  induction path generalizing ptr index with
  | nil => rfl
  | cons c path ih =>
    unfold indexLoop upToLast
    rw [ih]
    by_cases hpath : slash ∈ path
    · rw [if_pos hpath, if_pos hpath, if_pos (List.mem_cons_of_mem _ hpath), List.length_cons]
      omega
    · rw [if_neg hpath, if_neg hpath]
      by_cases hc : c = slash
      · rw [if_pos hc, if_pos hc, if_pos (by rw [hc]; exact List.mem_cons_self), List.length_singleton]
      · have hnot : slash ∉ c :: path := by
          rw [List.mem_cons]
          exact not_or.mpr ⟨Ne.symm hc, hpath⟩
        rw [if_neg hc, if_neg hnot]

theorem indexLoop_length (path : List UInt8) : indexLoop path 0 0 = (upToLast slash path).length := by
  rw [indexLoop_eq]
  split
  · exact Nat.zero_add _
  next h =>
    rw [upToLast_not_mem h]
    rfl

theorem blankLoop_none {n : Nat} (h : ∀ i, 0 < i → text[i]? ≠ some space) : blankLoop text n = none := by
  induction n with
  | zero => rfl
  | succ n ih =>
    unfold blankLoop
    rw [if_neg (h (n + 1) (by omega)), ih]

theorem blankLoop_some {n p : Nat} (hpos : 0 < p) (hp : text[p]? = some space)
    (hlast : ∀ i, p < i → text[i]? ≠ some space) (hn : p ≤ n) : blankLoop text n = some p := by
  induction n with
  | zero => omega
  | succ n ih =>
    unfold blankLoop
    by_cases heq : p = n + 1
    · rw [if_pos (by rw [← heq]; exact hp), heq]
    · rw [if_neg (hlast (n + 1) (by omega)), ih (by omega)]

/-- The loop finds the last blank of the line unless it is the first character. -/
theorem blankLoop_append (h : space ∉ rest) :
    blankLoop (lead ++ space :: rest) (lead ++ space :: rest).length =
      if lead = [] then none else some lead.length := by
  have hbehind : ∀ i, lead.length < i → (lead ++ space :: rest)[i]? ≠ some space := by
    intro i hi hsome
    rw [List.getElem?_append_right (by omega)] at hsome
    obtain ⟨k, hk⟩ : ∃ k, i - lead.length = k + 1 := ⟨i - lead.length - 1, by omega⟩
    rw [hk, List.getElem?_cons_succ] at hsome
    exact h (List.mem_of_getElem? hsome)
  split
  next hlead =>
    subst hlead
    exact blankLoop_none hbehind
  next hlead =>
    apply blankLoop_some (List.length_pos_of_ne_nil hlead) _ hbehind
    · simp
    · simp

theorem blankLoop_not_mem (h : space ∉ text) (n : Nat) : blankLoop text n = none :=
  blankLoop_none fun _ _ hsome => h (List.mem_of_getElem? hsome)

end

section
variable {common : List UInt8 → List UInt8 → Nat} {word saved p : List UInt8} {names : List (List UInt8)}

/-- `min_length` and the first name stand for the common prefix of the names so far. -/
theorem candidates_fold_some (hcommon : ∀ saved name, common saved name = commonLength saved name)
    (hword : word ≠ []) (hp : word <+: saved.take p.length) (hsaved : p = saved.take p.length) :
    names.foldl (candidateTurn common word) (p.length, some saved) =
      (((names.filter fun name => word.isPrefixOf name).foldl commonPrefix p).length, some saved) ∧
    (names.filter fun name => word.isPrefixOf name).foldl commonPrefix p =
      saved.take ((names.filter fun name => word.isPrefixOf name).foldl commonPrefix p).length := by
  induction names generalizing p with
  | nil => exact ⟨rfl, hsaved⟩
  | cons name names ih =>
    rw [List.foldl_cons]
    by_cases hname : word.isPrefixOf name = true
    · have hpos : p.length ≠ 0 := by
        intro hzero
        rw [hzero, List.take_zero] at hp
        exact hword (List.prefix_nil.mp hp)
      have hnext : commonPrefix p name = saved.take (min p.length (commonLength saved name)) := by
        have htake : commonPrefix (saved.take p.length) name = saved.take (min p.length (commonLength saved name)) :=
          commonPrefix_take p.length
        rwa [← hsaved] at htake
      have hle := commonLength_le saved name
      have hlen : (commonPrefix p name).length = min p.length (commonLength saved name) := by
        rw [hnext, List.length_take]
        omega
      have hturn : candidateTurn common word (p.length, some saved) name =
          ((commonPrefix p name).length, some saved) := by
        unfold candidateTurn
        simp only [if_pos hname, if_neg hpos, Option.getD_some, hcommon, hlen]
        congr 1
        split
        · omega
        · omega
      have hkept : commonPrefix p name = saved.take (commonPrefix p name).length := by
        rw [hlen, hnext]
      have hbegins : word <+: commonPrefix p name := by
        apply prefix_commonPrefix_iff.mpr
        rw [hsaved]
        exact ⟨hp, List.isPrefixOf_iff_prefix.mp hname⟩
      have hrest := ih (by rw [← hkept]; exact hbegins) hkept
      rw [List.filter_cons_of_pos hname, List.foldl_cons, hturn]
      exact hrest
    · have hturn : candidateTurn common word (p.length, some saved) name = (p.length, some saved) := by
        unfold candidateTurn
        rw [if_neg hname]
      rw [List.filter_cons_of_neg hname, hturn]
      exact ih hp hsaved

/-- The loops find the common prefix of the candidates. -/
theorem candidates_fold (hcommon : ∀ saved name, common saved name = commonLength saved name)
    (hword : word ≠ []) {candidates : List (List UInt8)}
    (hcand : candidates = names.filter fun name => word.isPrefixOf name) :
    (candidates = [] ∧ names.foldl (candidateTurn common word) (0, none) = (0, none)) ∨
    (candidates ≠ [] ∧ ∃ saved, names.foldl (candidateTurn common word) (0, none) =
        ((longestCommon candidates).length, some saved) ∧
      saved.take (longestCommon candidates).length = longestCommon candidates) := by
  subst hcand
  induction names with
  | nil => exact .inl ⟨rfl, rfl⟩
  | cons name names ih =>
    rw [List.foldl_cons]
    by_cases hname : word.isPrefixOf name = true
    · have hturn : candidateTurn common word (0, none) name = (name.length, some name) := by
        have hsame := commonLength_le name name
        unfold candidateTurn
        simp only [if_pos hname, if_pos, hcommon]
        congr 1
        split
        next hlt =>
          have hself : name <+: commonPrefix name name :=
            prefix_commonPrefix_iff.mpr ⟨List.prefix_refl _, List.prefix_refl _⟩
          have hlen := hself.length_le
          unfold commonPrefix at hlen
          rw [List.length_take] at hlen
          omega
        · rfl
      have hwhole : name.take name.length = name := List.take_length
      have hbegins : word <+: name.take name.length := by
        rw [hwhole]
        exact List.isPrefixOf_iff_prefix.mp hname
      obtain ⟨hfold, htake⟩ := candidates_fold_some hcommon hword hbegins hwhole.symm
      rw [List.filter_cons_of_pos hname, hturn]
      exact .inr ⟨List.cons_ne_nil _ _, name, hfold, htake.symm⟩
    · have hturn : candidateTurn common word (0, none) name = (0, none) := by
        unfold candidateTurn
        rw [if_neg hname]
      rw [List.filter_cons_of_neg hname, hturn]
      exact ih

end

section
variable {w : MshWorld} {text lead rest path bytes : List UInt8}

theorem cText_split {line : List UInt8} (h : 0 ∈ line) :
    ∃ rest, line = cText line ++ 0 :: rest ∧ 0 ∉ cText line := by
  obtain ⟨text, rest, hline, hnot⟩ := List.eq_append_cons_of_mem h
  have htext : cText line = text := by
    rw [hline]
    exact cText_stop hnot
  rw [htext]
  exact ⟨rest, hline, hnot⟩

theorem cString_stop (h : 0 ∉ text) : cString (text ++ 0 :: rest) = some text := by
  unfold cString
  rw [if_pos (by simp), cText_stop h]

/-- Bytes written behind a part of the line. -/
theorem writeBytes_behind (lead bytes line : List UInt8) (h : lead.length + bytes.length ≤ (lead ++ line).length) :
    writeBytes (lead ++ line) lead.length bytes = some (lead ++ bytes ++ line.drop bytes.length) := by
  unfold writeBytes
  rw [if_pos h, List.take_left, ← List.drop_drop, List.drop_left]

theorem cString_append_iff (h : 0 ∉ text) : cString (text ++ rest) = some text ↔ rest.head? = some 0 := by
  constructor
  · intro hstring
    unfold cString at hstring
    split at hstring
    next hmem =>
      have hrest := (List.mem_append.mp hmem).resolve_left h
      obtain ⟨behind, hsplit, hnot⟩ := cText_split hrest
      have hwhole : cText (text ++ rest) = text ++ cText rest := by
        have hnone : 0 ∉ text ++ cText rest := by
          rw [List.mem_append]
          exact not_or.mpr ⟨h, hnot⟩
        have hstop : cText (text ++ cText rest ++ 0 :: behind) = text ++ cText rest := cText_stop hnone
        rw [List.append_assoc, ← hsplit] at hstop
        exact hstop
      have hlen := congrArg List.length (hwhole.symm.trans (Option.some.inj hstring))
      rw [List.length_append] at hlen
      have hempty : cText rest = [] := List.length_eq_zero_iff.mp (by omega)
      rw [hsplit, hempty]
      rfl
    next => cases hstring
  · intro hrest
    cases rest with
    | nil => cases hrest
    | cons c rest =>
      obtain rfl := Option.some.inj hrest
      exact cString_stop h

theorem command_no_mark {name : List UInt8} (h : name ∈ mshCommands w) :
    ∀ c ∈ name, isSeparator c = false := by
  obtain ⟨whole, hmem, hname⟩ := List.mem_filterMap.mp h
  split at hname
  · obtain rfl := Option.some.inj hname
    intro c hc
    exact w.identifiers whole hmem c (List.mem_of_mem_drop hc)
  · cases hname

/-- No command goes on from a text with a blank. -/
theorem commands_none (h : space ∈ text) :
    (mshCommands w).foldl (candidateTurn strCommon text) (0, none) = (0, none) := by
  have hne : text ≠ [] := List.ne_nil_of_mem h
  rcases candidates_fold (fun _ _ => rfl) hne rfl with ⟨-, hfold⟩ | ⟨hcand, -⟩
  · exact hfold
  · obtain ⟨name, hname⟩ := List.exists_mem_of_ne_nil _ hcand
    obtain ⟨hmem, hbegins⟩ := List.mem_filter.mp hname
    have hspace : space ∈ name := (List.isPrefixOf_iff_prefix.mp hbegins).subset h
    exact absurd (command_no_mark hmem space hspace) (by decide)

/-- What is common to names without NUL has none. -/
theorem longestCommon_no_nul {names : List (List UInt8)} (hne : names ≠ []) (h : ∀ name ∈ names, 0 ∉ name) :
    0 ∉ longestCommon names := by
  obtain ⟨name, hname⟩ := List.exists_mem_of_ne_nil _ hne
  exact fun hmem => h name hname ((longestCommon_begins hname).subset hmem)

/-- Where `msh_auto_complete_path` has a block of memory, it looks into the directory and writes the
common prefix of the candidates. -/
theorem mshAutoCompletePath_eq (hmemory : w.memory = true) (hpath : 0 ∉ path) (lead rest : List UInt8) :
    mshAutoCompletePath w (lead ++ path ++ 0 :: rest) lead.length =
      if fullPathSize ≤ (pathRoot w path ++ upToLast slash path).length then none
      else
        let candidates := ((w.entries (pathRoot w path ++ upToLast slash path)).getD []).filter
          fun name => (behindLast slash path).isPrefixOf name
        if behindLast slash path = [] ∨ candidates = [] then some (lead ++ path ++ 0 :: rest)
        else writeBytes (lead ++ path ++ 0 :: rest) (lead.length + (upToLast slash path).length)
          (longestCommon candidates ++ [0]) := by
  have htext : cText ((lead ++ path ++ 0 :: rest).drop lead.length) = path := by
    rw [List.append_assoc, List.drop_left, cText_stop hpath]
  have htake : path.take (upToLast slash path).length = upToLast slash path := by
    have hboth := upToLast_behindLast slash path
    have htake : (upToLast slash path ++ behindLast slash path).take (upToLast slash path).length =
        upToLast slash path := List.take_left
    rwa [hboth] at htake
  have hdrop : path.drop (upToLast slash path).length = behindLast slash path := rfl
  unfold mshAutoCompletePath
  simp only [htext, indexLoop_length, htake, hdrop, hmemory, Bool.true_eq_false, if_false]
  by_cases hfull : fullPathSize ≤ (pathRoot w path ++ upToLast slash path).length
  · rw [if_pos hfull, if_pos hfull]
    exact ite_self none
  · have hroot : ¬ fullPathSize ≤ (pathRoot w path).length := by
      rw [List.length_append] at hfull
      omega
    rw [if_neg hfull, if_neg hroot, if_neg hfull]
    cases w.entries (pathRoot w path ++ upToLast slash path) with
    | none =>
      simp
    | some names =>
      simp only [Option.getD_some]
      by_cases hword : behindLast slash path = []
      · rw [if_pos hword, if_pos (.inl hword)]
      · rw [if_neg hword]
        have hcommon : ∀ saved name, strCommon name saved = commonLength saved name :=
          fun saved name => commonLength_comm name saved
        have hcand : (names.filter fun name => (behindLast slash path).isPrefixOf name) =
            names.filter fun name => (behindLast slash path).isPrefixOf name := rfl
        rcases candidates_fold hcommon hword hcand with ⟨hcand, hfold⟩ | ⟨hcand, saved, hfold, htaken⟩
        · rw [hfold]
          simp [hcand]
        · rw [if_neg (not_or.mpr ⟨hword, hcand⟩), hfold]
          have hlen : (longestCommon (names.filter fun name =>
              (behindLast slash path).isPrefixOf name)).length ≠ 0 := by
            intro hzero
            have hpre : behindLast slash path <+: longestCommon (names.filter fun name =>
                (behindLast slash path).isPrefixOf name) :=
              (prefix_longestCommon_iff hcand).mpr fun name hname =>
                List.isPrefixOf_iff_prefix.mp (List.mem_filter.mp hname).2
            rw [List.length_eq_zero_iff.mp hzero] at hpre
            exact hword (List.prefix_nil.mp hpre)
          simp only [if_pos hlen, Option.getD_some, htaken]

/-- `msh_auto_complete` on a text with a blank behind its first character leaves what path completion does. -/
theorem mshAutoComplete_path (hlead : lead ≠ []) (hpath : space ∉ path) (hnul : 0 ∉ lead ++ space :: path)
    {line text' : List UInt8} (hline : line = lead ++ space :: path ++ 0 :: rest)
    (hrun : mshAutoCompletePath w line (lead.length + 1) = some (text' ++ 0 :: bytes))
    (hnul' : 0 ∉ text') (hspace : space ∈ text') :
    mshAutoComplete w line = some (text' ++ 0 :: bytes) := by
  have hne : ¬ lead ++ space :: path = [] := by simp
  have hstring : cString line = some (lead ++ space :: path) := by
    rw [hline]
    exact cString_stop hnul
  unfold mshAutoComplete
  simp only [hstring, Option.bind_eq_bind, Option.bind_some, if_neg hne, blankLoop_append hpath,
    if_neg hlead, hrun, cString_stop hnul', commands_none hspace]

theorem mshAutoComplete_overflow (hlead : lead ≠ []) (hpath : space ∉ path) (hnul : 0 ∉ lead ++ space :: path)
    {line : List UInt8} (hline : line = lead ++ space :: path ++ 0 :: rest)
    (hrun : mshAutoCompletePath w line (lead.length + 1) = none) : mshAutoComplete w line = none := by
  have hne : ¬ lead ++ space :: path = [] := by simp
  have hstring : cString line = some (lead ++ space :: path) := by
    rw [hline]
    exact cString_stop hnul
  unfold mshAutoComplete
  simp only [hstring, Option.bind_eq_bind, Option.bind_some, if_neg hne, blankLoop_append hpath,
    if_neg hlead, hrun, Option.bind_none]

end

section
variable {w : MshWorld} {line : MshLine}

/-- Nothing is completed behind a blank that is the first character, or without memory. -/
theorem mshAutoComplete_stays {lead path : List UInt8} (htext : cText line.bytes = lead ++ space :: path)
    (hpath : space ∉ path) (h : ¬ (w.memory = true ∧ lead ≠ [])) :
    mshAutoComplete w line.bytes = some line.bytes := by
  obtain ⟨rest, hline, hnul⟩ := cText_split line.ended
  rw [htext] at hline hnul
  have hmem : space ∈ lead ++ space :: path := by simp
  by_cases hlead : lead = []
  · have hne : ¬ lead ++ space :: path = [] := by simp
    have hstring : cString line.bytes = some (lead ++ space :: path) := by
      rw [hline]
      exact cString_stop hnul
    unfold mshAutoComplete
    simp only [hstring, Option.bind_eq_bind, Option.bind_some, if_neg hne, blankLoop_append hpath,
      if_pos hlead, commands_none hmem]
  · have hmemory : w.memory = false := by
      cases hw : w.memory with
      | false => rfl
      | true => exact absurd ⟨hw, hlead⟩ h
    have hrun : mshAutoCompletePath w line.bytes (lead.length + 1) = some line.bytes := by
      unfold mshAutoCompletePath
      simp only [if_pos hmemory]
    conv_rhs => rw [hline]
    rw [hline] at hrun ⊢
    exact mshAutoComplete_path hlead hpath hnul rfl hrun hnul hmem

/-- A line that is left as it is. -/
theorem tab_unchanged (h : mshAutoComplete w line.bytes = some line.bytes) :
    TabRight w line ↔ completion w (cText line.bytes) = cText line.bytes := by
  have hstring : cString line.bytes = some (cText line.bytes) := if_pos line.ended
  unfold TabRight
  constructor
  · rintro ⟨line', hrun, -, htext⟩
    obtain rfl := Option.some.inj (h.symm.trans hrun)
    exact (Option.some.inj (hstring.symm.trans htext)).symm
  · intro hsame
    exact ⟨line.bytes, h, line.size, by rw [hsame]; exact hstring⟩

theorem text_length_lt (line : MshLine) : (cText line.bytes).length < finshCmdSize := by
  obtain ⟨rest, hline, -⟩ := cText_split line.ended
  have hlen := congrArg List.length hline
  rw [line.size, List.length_append, List.length_cons] at hlen
  omega

/-- The first word of the line is completed from the names of the commands. -/
theorem tab_command_iff (hspace : space ∉ cText line.bytes) :
    TabRight w line ↔ line.bytes[(completion w (cText line.bytes)).length]? = some 0 := by
  obtain ⟨rest, hline, hnul⟩ := cText_split line.ended
  have hstring : cString line.bytes = some (cText line.bytes) := if_pos line.ended
  have hword : completedWord (cText line.bytes) = cText line.bytes := if_neg hspace
  generalize htext : cText line.bytes = text at *
  have hat : line.bytes[text.length]? = some 0 := by
    rw [hline, List.getElem?_append_right (Nat.le_refl _), Nat.sub_self]
    rfl
  by_cases hempty : text = []
  · have hrun : mshAutoComplete w line.bytes = some line.bytes := by
      unfold mshAutoComplete
      simp only [hstring, Option.bind_eq_bind, Option.bind_some, if_pos hempty]
    have hsame : completion w text = text := by
      unfold completion
      rw [if_pos (.inl (hword.trans hempty))]
    rw [tab_unchanged hrun, htext, hsame]
    exact ⟨fun _ => hat, fun _ => rfl⟩
  have hnames : candidateNames w text = (mshCommands w).filter fun name => text.isPrefixOf name := by
    unfold candidateNames
    rw [if_neg hspace, hword]
  have hcommon : ∀ saved name, strCommon saved name = commonLength saved name := fun _ _ => rfl
  rcases candidates_fold hcommon hempty hnames with ⟨hnone, hfold⟩ | ⟨hsome, saved, hfold, htaken⟩
  · have hrun : mshAutoComplete w line.bytes = some line.bytes := by
      unfold mshAutoComplete
      simp only [hstring, Option.bind_eq_bind, Option.bind_some, if_neg hempty, blankLoop_not_mem hspace, hfold]
    have hsame : completion w text = text := by
      unfold completion
      rw [if_pos (.inr hnone)]
    rw [tab_unchanged hrun, htext, hsame]
    exact ⟨fun _ => hat, fun _ => rfl⟩
  · have hrun : mshAutoComplete w line.bytes = writeBytes line.bytes 0 (longestCommon (candidateNames w text)) := by
      unfold mshAutoComplete
      simp only [hstring, Option.bind_eq_bind, Option.bind_some, if_neg hempty, blankLoop_not_mem hspace,
        hfold, htaken]
    have hcomp : completion w text = longestCommon (candidateNames w text) := by
      unfold completion completedLead
      rw [if_neg (not_or.mpr ⟨fun h => hempty (hword.symm.trans h), hsome⟩), if_neg hspace, List.nil_append]
    have hlcp : 0 ∉ longestCommon (candidateNames w text) := by
      apply longestCommon_no_nul hsome
      intro name hname hzero
      rw [hnames] at hname
      exact absurd (command_no_mark (List.mem_filter.mp hname).1 0 hzero) (by decide)
    rw [hcomp]
    generalize longestCommon (candidateNames w text) = common at *
    by_cases hroom : common.length ≤ line.bytes.length
    · have hwrite : writeBytes line.bytes 0 common = some (common ++ line.bytes.drop common.length) :=
        writeBytes_behind [] common line.bytes (by simpa using hroom)
      have hread : line.bytes[common.length]? = (line.bytes.drop common.length).head? := by
        rw [List.head?_drop]
      rw [hread, ← cString_append_iff hlcp]
      unfold TabRight
      rw [hrun, hwrite, htext, hcomp]
      constructor
      · rintro ⟨line', hline', -, hright⟩
        rw [Option.some.inj hline']
        exact hright
      · intro hright
        refine ⟨_, rfl, ?_, hright⟩
        rw [List.length_append, List.length_drop, ← line.size]
        omega
    · have hwrite : writeBytes line.bytes 0 common = none := if_neg (by omega)
      have hread : line.bytes[common.length]? = none := List.getElem?_eq_none (by omega)
      rw [hread]
      unfold TabRight
      rw [hrun, hwrite]
      constructor
      · rintro ⟨line', hline', -⟩
        cases hline'
      · intro h
        cases h

/-- Behind a blank the completion is written into the line, if `full_path` holds the directory. -/
theorem tab_path_iff {lead path : List UInt8} (htext : cText line.bytes = lead ++ space :: path)
    (hlead : lead ≠ []) (hpath : space ∉ path) (hmemory : w.memory = true) :
    TabRight w line ↔ (completedDirectory w (cText line.bytes)).length < fullPathSize ∧
      (completion w (cText line.bytes)).length < finshCmdSize := by
  obtain ⟨rest, hline, hnul⟩ := cText_split line.ended
  have hlt := text_length_lt line
  rw [htext] at hline hnul hlt
  have hmem : space ∈ lead ++ space :: path := by simp
  have hbehind : behindLast space (lead ++ space :: path) = path := behindLast_append hpath
  have hnulpath : 0 ∉ path := fun h => hnul (by simp [h])
  have hstart : (lead ++ [space]).length = lead.length + 1 := by simp
  have hsplit : line.bytes = (lead ++ [space]) ++ path ++ 0 :: rest := by
    rw [hline]
    simp
  have hrun := mshAutoCompletePath_eq hmemory hnulpath (lead ++ [space]) rest
  rw [← hsplit, hstart] at hrun
  have hdir : completedDirectory w (lead ++ space :: path) = pathRoot w path ++ upToLast slash path := by
    unfold completedDirectory
    rw [hbehind]
  have hword : completedWord (lead ++ space :: path) = behindLast slash path := by
    unfold completedWord
    rw [if_pos hmem, hbehind]
  have hbefore : completedLead (lead ++ space :: path) = lead ++ [space] ++ upToLast slash path := by
    unfold completedLead
    rw [if_pos hmem, hbehind, upToLast_append hpath]
  have hnames : candidateNames w (lead ++ space :: path) =
      ((w.entries (pathRoot w path ++ upToLast slash path)).getD []).filter
        fun name => (behindLast slash path).isPrefixOf name := by
    unfold candidateNames
    rw [if_pos hmem, hword, hdir]
  rw [← hnames] at hrun
  rw [htext, hdir]
  by_cases hfull : fullPathSize ≤ (pathRoot w path ++ upToLast slash path).length
  · rw [if_pos hfull] at hrun
    have hnone := mshAutoComplete_overflow hlead hpath hnul hline hrun
    unfold TabRight
    rw [hnone]
    constructor
    · rintro ⟨line', hline', -⟩
      cases hline'
    · rintro ⟨hlt', -⟩
      omega
  rw [if_neg hfull] at hrun
  simp only at hrun
  by_cases hstay : behindLast slash path = [] ∨ candidateNames w (lead ++ space :: path) = []
  · rw [if_pos hstay] at hrun
    have hsame : completion w (lead ++ space :: path) = lead ++ space :: path := by
      unfold completion
      rw [hword, if_pos hstay]
    have hall : mshAutoComplete w line.bytes = some line.bytes := by
      conv_rhs => rw [hline]
      rw [hline] at hrun ⊢
      exact mshAutoComplete_path hlead hpath hnul rfl hrun hnul hmem
    rw [tab_unchanged hall, htext, hsame]
    exact ⟨fun _ => ⟨by omega, hlt⟩, fun _ => rfl⟩
  rw [if_neg hstay] at hrun
  have hcomp : completion w (lead ++ space :: path) = lead ++ [space] ++ upToLast slash path ++
      longestCommon (candidateNames w (lead ++ space :: path)) := by
    unfold completion
    rw [hword, if_neg hstay, hbefore]
  have hlcp : 0 ∉ longestCommon (candidateNames w (lead ++ space :: path)) := by
    apply longestCommon_no_nul (not_or.mp hstay).2
    intro name hname
    rw [hnames] at hname
    have hentry := (List.mem_filter.mp hname).1
    cases hfound : w.entries (pathRoot w path ++ upToLast slash path) with
    | none =>
      rw [hfound] at hentry
      cases hentry
    | some names =>
      rw [hfound] at hentry
      exact (w.entryTexts _ _ hfound name hentry).1
  have hwhole : line.bytes = (lead ++ [space] ++ upToLast slash path) ++ (behindLast slash path ++ 0 :: rest) := by
    rw [hsplit]
    conv_lhs => rw [← upToLast_behindLast slash path]
    simp only [List.append_assoc]
  have hplace : (lead ++ [space] ++ upToLast slash path).length = lead.length + 1 + (upToLast slash path).length := by
    rw [List.length_append, hstart]
  rw [hcomp]
  generalize longestCommon (candidateNames w (lead ++ space :: path)) = common at *
  have hbefore0 : 0 ∉ lead ++ [space] ++ upToLast slash path := by
    intro h
    apply hnul
    have hboth := upToLast_behindLast slash path
    have hin : 0 ∈ lead ++ [space] ++ (upToLast slash path ++ behindLast slash path) := by
      rw [← List.append_assoc]
      exact List.mem_append_left _ h
    rw [hboth] at hin
    simpa using hin
  have hclean : 0 ∉ lead ++ [space] ++ upToLast slash path ++ common := by
    rw [List.mem_append]
    exact not_or.mpr ⟨hbefore0, hlcp⟩
  have hsize := line.size
  by_cases hroom : (lead ++ [space] ++ upToLast slash path ++ common).length < finshCmdSize
  · have hwrite := writeBytes_behind (lead ++ [space] ++ upToLast slash path) (common ++ [0])
      (behindLast slash path ++ 0 :: rest) (by
        rw [← hwhole, hsize, hplace, List.length_append, List.length_singleton]
        rw [List.length_append, hplace] at hroom
        omega)
    rw [← hwhole, hplace, ← hrun] at hwrite
    have hshape : lead ++ [space] ++ upToLast slash path ++ (common ++ [0]) ++
        (behindLast slash path ++ 0 :: rest).drop (common ++ [0]).length =
        (lead ++ [space] ++ upToLast slash path ++ common) ++ 0 ::
          (behindLast slash path ++ 0 :: rest).drop (common ++ [0]).length := by simp
    rw [hshape] at hwrite
    have hall := mshAutoComplete_path hlead hpath hnul hline hwrite hclean (by simp)
    refine ⟨fun _ => ⟨by omega, hroom⟩, fun _ => ⟨_, hall, ?_, ?_⟩⟩
    · have hlen := congrArg List.length hwhole
      rw [hsize] at hlen
      simp only [List.length_append, List.length_cons, List.length_drop, List.length_nil] at hlen hroom ⊢
      omega
    · rw [cString_stop hclean, htext, hcomp]
  · have hwrite : writeBytes line.bytes (lead.length + 1 + (upToLast slash path).length) (common ++ [0]) = none := by
      apply if_neg
      rw [hsize]
      rw [List.length_append, hplace] at hroom
      rw [List.length_append, List.length_singleton]
      omega
    rw [hwrite] at hrun
    have hnone := mshAutoComplete_overflow hlead hpath hnul hline hrun
    unfold TabRight
    rw [hnone]
    constructor
    · rintro ⟨line', hline', -⟩
      cases hline'
    · rintro ⟨-, hlt'⟩
      exact absurd hlt' hroom

/-- Tab completes a line inside its array exactly when the completed line fits. -/
theorem tab_right_iff (w : MshWorld) (line : MshLine) : TabRight w line ↔ CompletionFits w line := by
  unfold CompletionFits
  simp only
  by_cases hspace : space ∈ cText line.bytes
  · rw [if_pos hspace]
    obtain ⟨lead, path, htext, hpath⟩ := cut_at_last hspace
    have hfirst : upToLast space (cText line.bytes) ≠ [space] ↔ lead ≠ [] := by
      rw [htext, upToLast_append hpath]
      simp
    split
    next h => exact tab_path_iff htext (hfirst.mp h.2) hpath h.1
    next h =>
      rw [hfirst] at h
      exact tab_unchanged (mshAutoComplete_stays htext hpath h)
  · rw [if_neg hspace]
    exact tab_command_iff hspace

end

/-- A system with one command, `ls`, and in its root directory a file whose name is 90 letters long. -/
def longNameWorld : MshWorld where
  syscalls := ["__cmd_ls".toUTF8.toList]
  memory := true
  workingDirectory := [slash]
  entries := fun path => if path = [slash] then some [List.replicate 90 97] else none
  identifiers := by decide +kernel
  directoryText := by decide
  entryTexts := by
    intro path names h name hname
    split at h
    · obtain rfl := Option.some.inj h
      obtain rfl := List.mem_singleton.mp hname
      exact ⟨by decide, by decide⟩
    · cases h

/-- `ls a`, typed. -/
def typedPath : MshLine := ⟨[108, 115, 32, 97] ++ List.replicate 76 0, by decide, by decide⟩

/-- The name is copied behind the end of the line. -/
theorem longName_overflows : ¬ TabRight longNameWorld typedPath := by
  rintro ⟨line', hrun, -⟩
  have hnone : mshAutoComplete longNameWorld typedPath.bytes = none := by decide +kernel
  rw [hnone] at hrun
  cases hrun

end RTThread
