import RTThread.DfsLookup
import RTThread.Runs

namespace RTThread

inductive MountCall where
  | mount (r : MountRequest)
  | unmount (r : UnmountRequest)

def MountedOn (table : List DfsFilesystem) (mountpath : CString) : Prop :=
  ∃ i, MountedAt table i mountpath

/-- Reasons to refuse a mount that have nothing to do with what is mounted where. -/
def MountRefused (types : List (Option DfsFilesystemOps)) (workingDirectory : Option CString)
    (table : List DfsFilesystem) (fullpath : CString) (r : MountRequest) : Prop :=
  mountDevice r = none ∨
  (∀ ops, findType types r.filesystemtype = some ops → ops.hasMount = false) ∨
  mountPointExists workingDirectory table fullpath r.pathOpens = false ∨
  (∀ entry ∈ table, entry.ops ≠ none) ∨
  (mountDevice r ≠ some none ∧ r.deviceOpens = false) ∨
  r.mounts = false

section
variable (types : List (Option DfsFilesystemOps)) (workingDirectory : Option CString)

def mountCall (table : List DfsFilesystem) :
    MountCall → Option (Except (Option DfsErrno) Unit × List DfsFilesystem)
  | .mount r => some (dfsMount types workingDirectory r table)
  | .unmount r => dfsUnmount workingDirectory r table

def mountStep (table : List DfsFilesystem) (call : MountCall) : Option (List DfsFilesystem) :=
  (mountCall types workingDirectory table call).map (·.2)

/-- What a call should leave behind. -/
def MountPromise (table : List DfsFilesystem) (call : MountCall) : Prop :=
  ∃ answer table', mountCall types workingDirectory table call = some (answer, table') ∧
    DistinctMounts table' ∧ (∀ e, answer = .error e → table' = table) ∧
    ∀ r fullpath, call = .unmount r → answer = .ok () →
      dfsNormalizePath workingDirectory r.memory r.specialfile = some fullpath →
      ¬MountedOn table' fullpath

/-- A path whose normal form is mounted already is itself a mount path, or the call is refused
for another reason. -/
def SpellsMountPath (table : List DfsFilesystem) : MountCall → Prop
  | .unmount _ => True
  | .mount r => ∀ fullpath, dfsNormalizePath workingDirectory r.memory r.path = some fullpath →
      MountedOn table fullpath →
      MountedOn table r.path ∨ MountRefused types workingDirectory table fullpath r

end

/-- Mount paths are distinct, and the entries without operations are cleared. -/
structure MountTableOk (table : List DfsFilesystem) : Prop where
  distinct : DistinctMounts table
  cleared : ∀ entry ∈ table, entry.ops = none → entry = clearedEntry

section
variable {types : List (Option DfsFilesystemOps)} {workingDirectory : Option CString}
  {table table' : List DfsFilesystem} {path mountpath fullpath : CString} {fs : Option Nat}
  {i k : Nat} {ops : DfsFilesystemOps} {devId : Option Nat} {r : MountRequest} {call : MountCall}

theorem reserveEntry_ok (h : reserveEntry path table i fs = .ok k) :
    (fs = some k ∨ ∃ j entry, k = i + j ∧ table[j]? = some entry ∧ entry.ops = none) ∧
      ∀ entry ∈ table, entry.ops ≠ none → entry.path ≠ some path := by
  induction table generalizing i fs with
  | nil =>
    cases fs with
    | none => cases h
    | some k' => cases h; exact ⟨.inl rfl, by simp⟩
  | cons iter rest ih =>
    unfold reserveEntry at h
    split at h
    · next hfree =>
      obtain ⟨hk, hrest⟩ := ih h
      refine ⟨?_, by simpa [hfree] using hrest⟩
      rcases hk with hk | ⟨j, entry, rfl, hj, hops⟩
      · cases fs with
        | none => exact .inr ⟨0, iter, (by simpa using hk.symm), rfl, hfree⟩
        | some k' => exact .inl hk
      · exact .inr ⟨j + 1, entry, by omega, hj, hops⟩
    · next hused =>
      split at h
      · cases h
      · next hpath =>
        obtain ⟨hk, hrest⟩ := ih h
        refine ⟨?_, by simpa [hpath] using hrest⟩
        rcases hk with hk | ⟨j, entry, rfl, hj, hops⟩
        · exact .inl hk
        · exact .inr ⟨j + 1, entry, by omega, hj, hops⟩

theorem reserveEntry_exists (hpath : ∀ entry ∈ table, entry.ops ≠ none → entry.path ≠ some path)
    (hfree : fs ≠ none ∨ ∃ entry ∈ table, entry.ops = none) :
    ∃ k, reserveEntry path table i fs = .ok k := by
  induction table generalizing i fs with
  | nil =>
    cases fs with
    | none => simp at hfree
    | some k => exact ⟨k, rfl⟩
  | cons iter rest ih =>
    have hrest := fun entry hentry => hpath entry (List.mem_cons_of_mem iter hentry)
    unfold reserveEntry
    by_cases hops : iter.ops = none
    · rw [if_pos hops]
      apply ih hrest
      left
      cases fs <;> simp
    · rw [if_neg hops, if_neg (hpath iter List.mem_cons_self hops)]
      apply ih hrest
      simpa [hops] using hfree

theorem set_clearedEntry (hk : table[k]? = some clearedEntry) (entry : DfsFilesystem) :
    (table.set k entry).set k clearedEntry = table := by
  obtain ⟨hlt, hentry⟩ := List.getElem?_eq_some_iff.mp hk
  rw [List.set_set, ← hentry, List.set_getElem_self]

theorem mountedOn_iff : MountedOn table path ↔
    ∃ entry ∈ table, entry.path = some path ∧ entry.ops ≠ none := by
  constructor
  · rintro ⟨i, entry, hi, hentry⟩
    exact ⟨entry, List.mem_of_getElem? hi, hentry⟩
  · rintro ⟨entry, hmem, hentry⟩
    obtain ⟨i, hi⟩ := List.mem_iff_getElem?.mp hmem
    exact ⟨i, entry, hi, hentry⟩

theorem mountedAt_set_other (h : i ≠ k) (entry : DfsFilesystem) :
    MountedAt (table.set k entry) i path ↔ MountedAt table i path := by
  simp only [MountedAt, List.getElem?_set_ne (Ne.symm h)]

theorem mountedAt_set_same {entry : DfsFilesystem} (h : k < table.length) :
    MountedAt (table.set k entry) k path ↔ entry.path = some path ∧ entry.ops ≠ none := by
  simp [MountedAt, h]

variable (types workingDirectory) in
/-- A mount fails and leaves the table, or passes every test and takes a cleared entry. -/
theorem dfsMount_cases (hok : MountTableOk table) (r : MountRequest) :
    (∃ e, dfsMount types workingDirectory r table = (.error e, table) ∧
      ∀ fullpath, dfsNormalizePath workingDirectory r.memory r.path = some fullpath →
        MountedOn table r.path ∨ MountRefused types workingDirectory table fullpath r) ∨
    ∃ devId ops fullpath k,
      dfsMount types workingDirectory r table =
        (.ok (), table.set k ⟨devId, some fullpath, some ops⟩) ∧
      dfsNormalizePath workingDirectory r.memory r.path = some fullpath ∧
      table[k]? = some clearedEntry ∧ ¬MountedOn table r.path ∧
      ¬MountRefused types workingDirectory table fullpath r := by
  unfold dfsMount
  split
  · next hdev => exact .inl ⟨_, rfl, fun _ _ => .inr (.inl hdev)⟩
  next devId hdev =>
  split
  · next htype => exact .inl ⟨_, rfl, fun _ _ => .inr (.inr (.inl (by simp [htype])))⟩
  next ops htype =>
  split
  · next hmount =>
    refine .inl ⟨_, rfl, fun _ _ => .inr (.inr (.inl fun ops' hops => ?_))⟩
    obtain rfl := Option.some.inj (htype.symm.trans hops)
    exact hmount
  next hmount =>
  split
  · next hnorm => exact .inl ⟨_, rfl, by simp [hnorm]⟩
  next fullpath hnorm =>
  split
  · next hexists =>
    refine .inl ⟨_, rfl, fun full hfull => .inr (.inr (.inr (.inl ?_)))⟩
    obtain rfl := Option.some.inj (hnorm.symm.trans hfull)
    exact hexists
  next hexists =>
  split
  · next e hreserve =>
    refine .inl ⟨_, rfl, fun full hfull => ?_⟩
    by_contra hneither
    obtain ⟨hpath, hother⟩ := not_or.mp hneither
    have hfree : ∃ entry ∈ table, entry.ops = none := by
      by_contra hfull
      refine hother (.inr (.inr (.inr (.inl fun entry hentry hops => ?_))))
      exact hfull ⟨entry, hentry, hops⟩
    obtain ⟨k, hk⟩ : ∃ k, reserveEntry r.path table 0 none = .ok k :=
      reserveEntry_exists
        (fun entry hentry hops heq => hpath (mountedOn_iff.mpr ⟨entry, hentry, heq, hops⟩))
        (.inr hfree)
    rw [hreserve] at hk
    cases hk
  next k hreserve =>
  obtain ⟨hk, hpaths⟩ := reserveEntry_ok hreserve
  obtain hk | ⟨j, entry, hkj, hj, hfree⟩ := hk
  · cases hk
  obtain rfl : k = j := by omega
  obtain rfl := hok.cleared entry (List.mem_of_getElem? hj) hfree
  unfold mountEntry
  simp only [set_clearedEntry hj]
  split
  · next hdevice =>
    refine .inl ⟨_, rfl, fun _ _ => .inr (.inr (.inr (.inr (.inr (.inl ⟨?_, hdevice.2⟩)))))⟩
    simpa [hdev] using hdevice.1
  next hdevice =>
  split
  · next hmounts => exact .inl ⟨_, rfl, fun _ _ => .inr (.inr (.inr (.inr (.inr (.inr hmounts)))))⟩
  next hmounts =>
  refine .inr ⟨devId, ops, fullpath, k, rfl, hnorm, hj, fun hon => ?_, fun hother => ?_⟩
  · obtain ⟨entry, hentry, heq, hops⟩ := mountedOn_iff.mp hon
    exact hpaths entry hentry hops heq
  · rcases hother with h | h | h | h | h | h
    · simp [hdev] at h
    · exact hmount (h ops htype)
    · exact hexists h
    · exact h clearedEntry (List.mem_of_getElem? hj) rfl
    · exact hdevice ⟨by simpa [hdev] using h.1, h.2⟩
    · exact hmounts h

theorem MountTableOk.mount (hok : MountTableOk table) (hk : table[k]? = some clearedEntry)
    (hnew : ¬MountedOn table fullpath) :
    MountTableOk (table.set k ⟨devId, some fullpath, some ops⟩) := by
  obtain ⟨hlt, hentry⟩ := List.getElem?_eq_some_iff.mp hk
  constructor
  · intro i j path hi hj
    by_cases hik : i = k <;> by_cases hjk : j = k
    · rw [hik, hjk]
    · subst hik
      obtain rfl := Option.some.inj ((mountedAt_set_same hlt).mp hi).1
      exact absurd ⟨j, (mountedAt_set_other hjk _).mp hj⟩ hnew
    · subst hjk
      obtain rfl := Option.some.inj ((mountedAt_set_same hlt).mp hj).1
      exact absurd ⟨i, (mountedAt_set_other hik _).mp hi⟩ hnew
    · exact hok.distinct i j path ((mountedAt_set_other hik _).mp hi)
        ((mountedAt_set_other hjk _).mp hj)
  · intro entry hmem hops
    rcases List.mem_or_eq_of_mem_set hmem with hmem | rfl
    · exact hok.cleared entry hmem hops
    · cases hops

theorem MountTableOk.unmount (hok : MountTableOk table) :
    MountTableOk (table.set k clearedEntry) := by
  have hset : ∀ i path, MountedAt (table.set k clearedEntry) i path → MountedAt table i path := by
    rintro i path ⟨entry, hi, hpath, hops⟩
    rcases eq_or_ne k i with rfl | hne
    · have hlt : k < table.length := by simpa using (List.getElem?_eq_some_iff.mp hi).1
      rw [List.getElem?_set_self hlt] at hi
      obtain rfl := Option.some.inj hi
      cases hpath
    · exact ⟨entry, by rwa [List.getElem?_set_ne hne] at hi, hpath, hops⟩
  constructor
  · exact fun i j path hi hj => hok.distinct i j path (hset i path hi) (hset j path hj)
  · intro entry hmem hops
    rcases List.mem_or_eq_of_mem_set hmem with hmem | rfl
    · exact hok.cleared entry hmem hops
    · rfl

variable (workingDirectory) in
/-- An unmount fails and leaves the table, or clears the only entry mounted on its path. -/
theorem dfsUnmount_cases (hok : MountTableOk table) (r : UnmountRequest) :
    (∃ e, dfsUnmount workingDirectory r table = some (.error e, table)) ∨
    ∃ fullpath k, dfsNormalizePath workingDirectory r.memory r.specialfile = some fullpath ∧
      MountedAt table k fullpath ∧
      dfsUnmount workingDirectory r table = some (.ok (), table.set k clearedEntry) := by
  unfold dfsUnmount
  split
  · exact .inl ⟨_, rfl⟩
  next fullpath hnorm =>
  split
  · exact .inl ⟨_, rfl⟩
  next k hfind =>
  obtain ⟨hlt, hpath, -⟩ := List.findIdx?_eq_some_iff_getElem.mp hfind
  have hentry : table[k]? = some table[k] := List.getElem?_eq_getElem hlt
  have hpath : table[k].path = some fullpath := by simpa using hpath
  split
  · next hops =>
    have hcleared := hok.cleared table[k] (List.getElem_mem hlt) (by simpa [hentry] using hops)
    rw [hcleared] at hpath
    cases hpath
  next ops hops =>
  split
  · exact .inl ⟨_, rfl⟩
  · refine .inr ⟨fullpath, k, hnorm, ⟨table[k], hentry, hpath, ?_⟩, rfl⟩
    simpa [hentry] using Option.ne_none_iff_exists'.mpr ⟨ops, hops⟩

theorem MountTableOk.not_mountedOn (hok : MountTableOk table) (hk : MountedAt table k path) :
    ¬MountedOn (table.set k clearedEntry) path := by
  rintro ⟨i, hi⟩
  obtain ⟨entry, hentry, -⟩ := id hk
  have hlt := (List.getElem?_eq_some_iff.mp hentry).1
  by_cases hik : i = k
  · subst hik
    exact absurd ((mountedAt_set_same hlt).mp hi).1 nofun
  · exact hik (hok.distinct i k path ((mountedAt_set_other hik _).mp hi) hk)

theorem mountPromise_iff (hok : MountTableOk table) (call : MountCall) :
    MountPromise types workingDirectory table call ↔
      SpellsMountPath types workingDirectory table call := by
  cases call with
  | unmount r =>
    refine iff_of_true ?_ trivial
    rcases dfsUnmount_cases workingDirectory hok r with
      ⟨e, h⟩ | ⟨fullpath, k, hnorm, hk, h⟩
    · exact ⟨_, _, h, hok.distinct, fun _ _ => rfl, nofun⟩
    · refine ⟨_, _, h, hok.unmount.distinct, nofun, fun r' full hr _ hfull => ?_⟩
      cases hr
      obtain rfl := Option.some.inj (hnorm.symm.trans hfull)
      exact hok.not_mountedOn hk
  | mount r =>
    rcases dfsMount_cases types workingDirectory hok r with
      ⟨e, h, hwhy⟩ | ⟨devId, ops, fullpath, k, h, hnorm, hk, hraw, hother⟩
    · refine iff_of_true ⟨_, _, congrArg some h, hok.distinct, fun _ _ => rfl, nofun⟩ ?_
      exact fun fullpath hfull _ => hwhy fullpath hfull
    · have hlt := (List.getElem?_eq_some_iff.mp hk).1
      constructor
      · rintro ⟨answer, table', hcall, hdistinct, -⟩ full hfull ⟨i, hi⟩
        obtain rfl := Option.some.inj (hnorm.symm.trans hfull)
        obtain ⟨-, rfl⟩ := Prod.mk.inj (Option.some.inj (hcall.symm.trans (congrArg some h)))
        have hik : i ≠ k := by
          rintro rfl
          obtain ⟨entry, hentry, -, hops⟩ := hi
          obtain rfl := Option.some.inj (hk.symm.trans hentry)
          exact hops rfl
        exact absurd (hdistinct i k _ ((mountedAt_set_other hik _).mpr hi)
          ((mountedAt_set_same hlt).mpr ⟨rfl, nofun⟩)) hik
      · intro hspell
        have hnew : ¬MountedOn table fullpath := fun hon =>
          (hspell fullpath hnorm hon).elim hraw hother
        exact ⟨_, _, congrArg some h, (hok.mount hk hnew).distinct, nofun, nofun⟩

theorem MountTableOk.step (hok : MountTableOk table)
    (hkeeps : MountPromise types workingDirectory table call)
    (h : mountStep types workingDirectory table call = some table') : MountTableOk table' := by
  obtain ⟨⟨answer, after⟩, hcall, rfl⟩ := Option.map_eq_some_iff.mp h
  cases call with
  | unmount r =>
    rcases dfsUnmount_cases workingDirectory hok r with
      ⟨e, he⟩ | ⟨fullpath, k, -, -, he⟩
    · cases Option.some.inj (he.symm.trans hcall)
      exact hok
    · cases Option.some.inj (he.symm.trans hcall)
      exact hok.unmount
  | mount r =>
    have hspell := (mountPromise_iff hok _).mp hkeeps
    have hcall := Option.some.inj hcall
    rcases dfsMount_cases types workingDirectory hok r with
      ⟨e, he, -⟩ | ⟨devId, ops, fullpath, k, he, hnorm, hk, hraw, hother⟩
    · cases he.symm.trans hcall
      exact hok
    · cases he.symm.trans hcall
      exact hok.mount hk fun hon => (hspell fullpath hnorm hon).elim hraw hother

theorem mountTableOk_cleared (n : Nat) : MountTableOk (List.replicate n clearedEntry) := by
  constructor
  · rintro i j path ⟨entry, hi, hpath, -⟩
    obtain rfl := (List.mem_replicate.mp (List.mem_of_getElem? hi)).2
    cases hpath
  · exact fun entry hmem _ => (List.mem_replicate.mp hmem).2

/-- A run of mounts and unmounts keeps the table as promised exactly when each mount on a path
mounted already is refused. -/
theorem mountTable_keeps_iff (types : List (Option DfsFilesystemOps))
    (workingDirectory : Option CString) (n : Nat) (calls : List MountCall) :
    RunMeets (mountStep types workingDirectory) (MountPromise types workingDirectory) calls
        (List.replicate n clearedEntry) ↔
      RunMeets (mountStep types workingDirectory) (SpellsMountPath types workingDirectory) calls
        (List.replicate n clearedEntry) :=
  runMeets_congr (fun _ call _ hok => mountPromise_iff hok call)
    (fun _ _ _ _ hok hkeeps h => hok.step hkeeps h) (mountTableOk_cleared n)

end

def devfsOps : DfsFilesystemOps := ⟨['d', 'e', 'v', 'f', 's'], false, 1, true, false⟩

def mountDev (path : CString) : MountCall :=
  .mount ⟨none, path, ['d', 'e', 'v', 'f', 's'], true, true, true, true⟩

/-- `/dev` is mounted again as `/dev/`. -/
theorem mountTable_takes_slash_twice :
    ¬RunMeets (mountStep [some devfsOps] none) (MountPromise [some devfsOps] none)
      [mountDev ['/', 'd', 'e', 'v'], mountDev ['/', 'd', 'e', 'v', '/']]
      (List.replicate 2 clearedEntry) := by
  rintro ⟨-, hsecond⟩
  obtain ⟨⟨answer, table', hcall, hdistinct, -⟩, -⟩ := hsecond _ rfl
  cases hcall
  have hmounted : ∀ i < 2, MountedAt [⟨none, some ['/', 'd', 'e', 'v'], some devfsOps⟩,
      ⟨none, some ['/', 'd', 'e', 'v'], some devfsOps⟩] i ['/', 'd', 'e', 'v'] := by
    intro i hi
    obtain _ | _ | i := i
    · exact ⟨_, rfl, rfl, nofun⟩
    · exact ⟨_, rfl, rfl, nofun⟩
    · omega
  exact absurd (hdistinct 0 1 _ (hmounted 0 (by decide)) (hmounted 1 (by decide))) (by decide)

end RTThread
