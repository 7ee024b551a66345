import RTThread.AbsolutePaths
import RTThread.DfsMountModel

namespace RTThread

def MountedAt (table : List DfsFilesystem) (i : Nat) (mountpath : CString) : Prop :=
  ∃ entry, table[i]? = some entry ∧ entry.path = some mountpath ∧ entry.ops ≠ none

/-- No two occupied entries have one mount path. -/
def DistinctMounts (table : List DfsFilesystem) : Prop :=
  ∀ i j mountpath, MountedAt table i mountpath → MountedAt table j mountpath → i = j

section
variable {table rest : List DfsFilesystem} {iter : DfsFilesystem} {path mountpath : CString}
  {fs : Option Nat} {i n prefixlen : Nat}

theorem MountedAt.path_unique {m m' : CString} (h : MountedAt table i m) (h' : MountedAt table i m') :
    m = m' := by
  obtain ⟨e, he, hm, -⟩ := h
  obtain ⟨e', he', hm', -⟩ := h'
  cases Option.some.inj (he.symm.trans he')
  exact Option.some.inj (hm.symm.trans hm')

/-- What the scan of the first `n` entries has found. -/
structure BestMount (table : List DfsFilesystem) (path : CString) (n : Nat) (fs : Option Nat)
    (prefixlen : Nat) : Prop where
  start : fs = none → prefixlen = 0
  found : ∀ k, fs = some k → ∃ m, MountedAt table k m ∧ Covers m path ∧ m.length = prefixlen
  bound : ∀ j m, j < n → MountedAt table j m → Covers m path → fs ≠ none ∧ m.length ≤ prefixlen

theorem BestMount.skip (h : BestMount table path n fs prefixlen)
    (hskip : ∀ m, MountedAt table n m → Covers m path → fs ≠ none ∧ m.length ≤ prefixlen) :
    BestMount table path (n + 1) fs prefixlen := by
  refine ⟨h.start, h.found, fun j m hj hm hc => ?_⟩
  by_cases hjn : j = n
  · subst hjn
    exact hskip m hm hc
  · exact h.bound j m (by omega) hm hc

theorem BestMount.take (h : BestMount table path n fs prefixlen)
    (hmount : MountedAt table n mountpath) (hc : Covers mountpath path)
    (hle : prefixlen ≤ mountpath.length) :
    BestMount table path (n + 1) (some n) mountpath.length := by
  refine ⟨nofun, fun k hk => ?_, fun j m hj hm hcm => ⟨nofun, ?_⟩⟩
  · obtain rfl := Option.some.inj hk
    exact ⟨mountpath, hmount, hc, rfl⟩
  · by_cases hjn : j = n
    · subst hjn
      rw [hm.path_unique hmount]
    · have hbound := (h.bound j m (by omega) hm hcm).2
      omega

/-- The two tests of the scan say whether the mount path covers the path. -/
theorem covers_iff_tests (hm : Normalised mountpath) (hpath : Normalised path) :
    Covers mountpath path ↔ strncmpEq mountpath path mountpath.length = true ∧
      ¬(1 < mountpath.length ∧ mountpath.length < path.length ∧
        path[mountpath.length]? ≠ some '/') := by
  rw [strncmpEq_length]
  constructor
  · intro hc
    refine ⟨hc.prefix_of hpath, fun ⟨hlen, hlt, hsep⟩ => ?_⟩
    rcases hc with rfl | rfl | hc
    · exact absurd hlt (lt_irrefl _)
    · exact absurd hlen (by decide)
    · exact hsep ((separator_prefix_iff ((List.prefix_append _ _).trans hc) hlt).mp hc)
  · rintro ⟨hpre, hsep⟩
    by_cases hone : mountpath.length ≤ 1
    · exact .inr (.inl (hm.eq_root hone))
    · rcases Nat.lt_or_ge mountpath.length path.length with hlt | hge
      · refine .inr (.inr ((separator_prefix_iff hpre hlt).mpr ?_))
        by_contra hne
        exact hsep ⟨by omega, hlt, hne⟩
      · exact .inl (hpre.eq_of_length (le_antisymm hpre.length_le hge))

theorem BestMount.scan (htable : ∀ i m, MountedAt table i m → Normalised m)
    (hpath : Normalised path) (hrest : table.drop n = rest)
    (h : BestMount table path n fs prefixlen) :
    ∃ len, BestMount table path table.length (lookupFrom path rest n fs prefixlen) len := by
  induction rest generalizing n fs prefixlen with
  | nil =>
    refine ⟨prefixlen, h.start, h.found, fun j m hj hm hc => h.bound j m ?_ hm hc⟩
    have hlen := List.drop_eq_nil_iff.mp hrest
    omega
  | cons iter rest ih =>
    have hiter : table[n]? = some iter := by simp [← List.head?_drop, hrest]
    have hnext : table.drop (n + 1) = rest := by simp [← List.drop_drop, hrest]
    unfold lookupFrom
    split
    · next mountpath ops hpathOf hops =>
      have hmount : MountedAt table n mountpath := ⟨iter, hiter, hpathOf, by simp [hops]⟩
      have htests := covers_iff_tests (htable n mountpath hmount) hpath
      simp only
      split
      · next hno =>
        apply ih hnext
        refine h.skip fun m hm hc => ?_
        obtain rfl := hm.path_unique hmount
        rcases hno with hlt | hno
        · refine ⟨fun hnone => ?_, hlt.le⟩
          have hzero := h.start hnone
          omega
        · exact absurd (htests.mp hc).1 (by simp [hno])
      · next hyes =>
        split
        · next hsep =>
          apply ih hnext
          refine h.skip fun m hm hc => ?_
          obtain rfl := hm.path_unique hmount
          exact absurd hsep (htests.mp hc).2
        · next hsep =>
          apply ih hnext
          have hstr : strncmpEq mountpath path mountpath.length = true := by
            by_contra hne
            exact hyes (.inr (by simpa using hne))
          refine h.take hmount (htests.mpr ⟨hstr, hsep⟩) ?_
          by_contra hlt
          exact hyes (.inl (by omega))
    · next hnone =>
      apply ih hnext
      refine h.skip fun m hm => ?_
      obtain ⟨e, he, hem, hops⟩ := hm
      obtain rfl := Option.some.inj (hiter.symm.trans he)
      obtain ⟨ops, hops⟩ := Option.ne_none_iff_exists'.mp hops
      exact absurd hops (hnone m ops hem)

/-- The entry found covers the path, and no other one that does is longer. -/
theorem dfsFilesystemLookup_best (htable : ∀ i m, MountedAt table i m → Normalised m)
    (hpath : Normalised path) :
    ∃ len, BestMount table path table.length (dfsFilesystemLookup table path) len :=
  BestMount.scan htable hpath (by simp) ⟨fun _ => rfl, nofun, fun j m hj => absurd hj (by omega)⟩

theorem dfsSubdir_of_covers (hm : Normalised mountpath) (hpath : Normalised path)
    (hc : Covers mountpath path) (hne : mountpath ≠ path) :
    ∃ subdir, dfsSubdir mountpath path = some subdir ∧ subdir.head? = some '/' ∧
      path = (if mountpath = ['/'] then [] else mountpath) ++ subdir := by
  have hpre := hc.prefix_of hpath
  have hlen : mountpath.length ≠ path.length := fun h => hne (hpre.eq_of_length h)
  have hpos := hm.length_pos
  rcases hc with rfl | rfl | hsep
  · exact absurd rfl hne
  · obtain rfl | ⟨c, rest, hc, rfl⟩ := hpath.cases
    · exact absurd rfl hne
    · refine ⟨'/' :: c :: rest, ?_, rfl, rfl⟩
      simp [dfsSubdir, hc]
  · obtain ⟨rest, rfl⟩ := hsep
    have hroot : mountpath ≠ ['/'] := by
      rintro rfl
      obtain h | ⟨c, more, hc, h⟩ := hpath.cases
      · simp at h
      · simp only [List.cons_append, List.nil_append, List.cons.injEq, true_and] at h
        exact hc h.1.symm
    refine ⟨'/' :: rest, ?_, rfl, by simp [hroot]⟩
    have hdir : (mountpath ++ ['/'] ++ rest)[mountpath.length]? = some '/' := by simp
    simp only [dfsSubdir, if_neg hlen, hdir, ne_eq, not_true_eq_false, false_and, if_false]
    simp

/-- The mount found is the longest one that covers the path, and the rest of the path is its
name there. -/
theorem dfsFilesystemLookup_longest (table : List DfsFilesystem) (path : CString)
    (htable : ∀ i m, MountedAt table i m → Normalised m) (hdistinct : DistinctMounts table)
    (hpath : Normalised path) :
    (∀ i, dfsFilesystemLookup table path = some i ↔
      ∃ m, MountedAt table i m ∧ Covers m path ∧
        ∀ j m', MountedAt table j m' → Covers m' path → m'.length ≤ m.length) ∧
    (dfsFilesystemLookup table path = none ↔ ∀ j m, MountedAt table j m → ¬Covers m path) ∧
    ∀ i m, dfsFilesystemLookup table path = some i → MountedAt table i m →
      (dfsSubdir m path = none ↔ m = path) ∧
      ∀ subdir, dfsSubdir m path = some subdir → subdir.head? = some '/' ∧
        path = (if m = ['/'] then [] else m) ++ subdir := by
  obtain ⟨len, hbest⟩ := dfsFilesystemLookup_best htable hpath
  have hbound : ∀ j m, MountedAt table j m → Covers m path →
      dfsFilesystemLookup table path ≠ none ∧ m.length ≤ len := by
    intro j m hm
    obtain ⟨e, he, -⟩ := id hm
    exact hbest.bound j m (List.getElem?_eq_some_iff.mp he).1 hm
  refine ⟨fun i => ⟨fun hi => ?_, fun ⟨m, hm, hc, hlongest⟩ => ?_⟩, ⟨fun hnone j m hm hc => ?_,
    fun hnone => ?_⟩, fun i m hi hm => ?_⟩
  · obtain ⟨m, hm, hc, rfl⟩ := hbest.found i hi
    exact ⟨m, hm, hc, fun j m' hm' hc' => (hbound j m' hm' hc').2⟩
  · obtain ⟨k, hk⟩ := Option.ne_none_iff_exists'.mp (hbound i m hm hc).1
    obtain ⟨m', hm', hc', rfl⟩ := hbest.found k hk
    have hlen := le_antisymm (hbound i m hm hc).2 (hlongest k m' hm' hc')
    obtain rfl := hc.unique hc' hpath hlen
    rw [hk, hdistinct i k m hm hm']
  · exact (hbound j m hm hc).1 hnone
  · by_contra hsome
    obtain ⟨k, hk⟩ := Option.ne_none_iff_exists'.mp hsome
    obtain ⟨m, hm, hc, -⟩ := hbest.found k hk
    exact hnone k m hm hc
  · obtain ⟨m', hm', hc, -⟩ := hbest.found i hi
    obtain rfl := hm.path_unique hm'
    by_cases heq : m = path
    · subst heq
      simp [dfsSubdir]
    · obtain ⟨subdir, hsub, hhead, hrest⟩ := dfsSubdir_of_covers (htable i m hm) hpath hc heq
      rw [hsub]
      refine ⟨by simp [heq], fun s hs => ?_⟩
      obtain rfl := Option.some.inj hs
      exact ⟨hhead, hrest⟩

end

def rootedTable : List DfsFilesystem :=
  [⟨none, some ['/', 'm'], some ⟨['a'], false, 1, true, true⟩⟩,
    ⟨none, some ['/'], some ⟨['b'], false, 2, true, true⟩⟩, clearedEntry]

theorem rootedTable_mounts {i : Nat} {m : CString} (h : MountedAt rootedTable i m) :
    i = 0 ∧ m = ['/', 'm'] ∨ i = 1 ∧ m = ['/'] := by
  obtain ⟨e, he, hm, hops⟩ := h
  obtain _ | _ | _ | i := i
  · obtain rfl := Option.some.inj he
    exact .inl ⟨rfl, (Option.some.inj hm).symm⟩
  · obtain rfl := Option.some.inj he
    exact .inr ⟨rfl, (Option.some.inj hm).symm⟩
  · obtain rfl := Option.some.inj he
    cases hm
  · simp [rootedTable] at he

theorem rootedTable_lookup :
    ∃ m, MountedAt rootedTable 0 m ∧ Covers m ['/', 'm', '/', 'f'] ∧
      ∀ j m', MountedAt rootedTable j m' → Covers m' ['/', 'm', '/', 'f'] →
        m'.length ≤ m.length := by
  have hpath : Normalised ['/', 'm', '/', 'f'] := ⟨[['m'], ['f']], by simp [PathComponent], rfl⟩
  refine ((dfsFilesystemLookup_longest rootedTable _ (fun i m hm => ?_) (fun i j m hi hj => ?_)
    hpath).1 0).mp (by decide)
  · rcases rootedTable_mounts hm with ⟨-, rfl⟩ | ⟨-, rfl⟩
    · exact ⟨[['m']], by simp [PathComponent], rfl⟩
    · exact ⟨[], by simp, rfl⟩
  · rcases rootedTable_mounts hi with ⟨rfl, rfl⟩ | ⟨rfl, rfl⟩ <;>
      rcases rootedTable_mounts hj with ⟨rfl, h⟩ | ⟨rfl, h⟩
    · rfl
    · cases h
    · cases h
    · rfl

end RTThread
