import RTThread.Runs

namespace RTThread

/-- `struct log_trace_session` by its address, with its `id.num`. -/
structure LogSession where
  address : Nat
  num : Nat
deriving DecidableEq

/-- `_def_session`. -/
def defSession : LogSession := ⟨0, 0⟩

/-- `LOG_TRACE_MAX_SESSION`. -/
structure LogTraceConfig where
  maxSession : Nat
  pos : 0 < maxSession
  fits : maxSession < 65536

/-- The entries of `_the_sessions` below `_the_sess_nr`, and `_cache`; `registered` are the sessions
registered with success, the last one first, which the code does not store. -/
structure LogTrace where
  sessions : List LogSession
  cache : LogSession
  registered : List LogSession
deriving DecidableEq

def logTraceInit : LogTrace := ⟨[defSession], defSession, []⟩

namespace LogTrace

/-- The `do` loop of `_lg_lookup_session` with at most `fuel` turns; the outer `none` is the failed
assertion on an entry, or no end. -/
def searchLoop (s : LogTrace) (num : Nat) : Nat → Nat → Nat → Option (Option LogSession)
  | 0, _, _ => none
  | fuel + 1, first, last => do
    let i := (first + last) / 2
    let session ← s.sessions[i]?
    if session.num = num then some (some session)
    else
      let (first, last) := if num < session.num then (first, i) else (i, last)
      if (first : Int) ≠ last - 1 then s.searchLoop num fuel first last else some none

def lgLookupSession (s : LogTrace) (num : Nat) : Option (Option LogSession × LogTrace) :=
  if s.cache.num = num then some (some s.cache, s)
  else do
    match ← s.searchLoop num (s.sessions.length + 1) 0 s.sessions.length with
    | some session => some (some session, { s with cache := session })
    | none => some (none, s)

/-- The loop of `log_trace_register_session`, which moves the rest of the table up and puts the session
in its place; `none` where the id is there already. -/
def insertSession (session : LogSession) : List LogSession → Option (List LogSession)
  | [] => some [session]
  | other :: rest =>
    if session.num < other.num then some (session :: other :: rest)
    else if other.num = session.num then none
    else (insertSession session rest).map (other :: ·)

/-- `session` is `none` for `RT_NULL`. -/
def logTraceRegisterSession (c : LogTraceConfig) (s : LogTrace) (session : Option LogSession) :
    Int × LogTrace :=
  if s.sessions.length = c.maxSession then (-3, s)
  else
    match session with
    | none => (0, s)
    | some session =>
      match insertSession session s.sessions with
      | none => (-1, s)
      | some sessions => (0, ⟨sessions, s.cache, session :: s.registered⟩)

end LogTrace

inductive LogTraceAction where
  | register (session : Option LogSession)
  | lookup (num : Nat)
deriving DecidableEq

def logTraceStep (c : LogTraceConfig) (s : LogTrace) : LogTraceAction → Option LogTrace
  | .register session => some (s.logTraceRegisterSession c session).2
  | .lookup num => (s.lgLookupSession num).map Prod.snd

/-- Strictly sorted with the default session first, and each session registered with success once. -/
structure LogTrace.TableRight (s : LogTrace) : Prop where
  sorted : s.sessions.Pairwise fun a b => a.num < b.num
  first : s.sessions.head? = some defSession
  once : s.sessions.Perm (defSession :: s.registered)

/-- The search ends and returns the session of this id, if there is one. -/
def LogTrace.LookupRight (s : LogTrace) (num : Nat) : Prop :=
  ∃ session s', s.lgLookupSession num = some (session, s') ∧
    ∀ x, session = some x ↔ x ∈ s.sessions ∧ x.num = num

section
variable {c : LogTraceConfig} {s s' : LogTrace} {x y session : LogSession} {num first last fuel : Nat}
  {table table' : List LogSession}

theorem insertSession_spec (hsorted : table.Pairwise fun a b => a.num < b.num)
    (h : LogTrace.insertSession session table = some table') :
    table'.Pairwise (fun a b => a.num < b.num) ∧ table'.Perm (session :: table) ∧
      ∀ x ∈ table.head?, x.num < session.num → table'.head? = some x := by
  induction table generalizing table' with
  | nil =>
    obtain rfl := Option.some.inj h
    exact ⟨List.pairwise_singleton _ _, List.Perm.refl _, fun x hx => by cases hx⟩
  | cons other rest ih =>
    obtain ⟨hother, hrest⟩ := List.pairwise_cons.mp hsorted
    unfold LogTrace.insertSession at h
    split at h
    next hlt =>
      obtain rfl := Option.some.inj h
      refine ⟨List.pairwise_cons.mpr ⟨fun x hx => ?_, hsorted⟩, List.Perm.refl _,
        fun x hx hle => ?_⟩
      · rcases List.mem_cons.mp hx with rfl | hx
        · exact hlt
        · exact hlt.trans (hother x hx)
      · obtain rfl := Option.some.inj hx
        omega
    next hle =>
      split at h
      next => cases h
      next hne =>
        obtain ⟨rest', hinsert, rfl⟩ := Option.map_eq_some_iff.mp h
        obtain ⟨hsorted', hperm, -⟩ := ih hrest hinsert
        refine ⟨List.pairwise_cons.mpr ⟨fun x hx => ?_, hsorted'⟩, ?_, fun x hx _ => hx⟩
        · rcases List.mem_cons.mp (hperm.mem_iff.mp hx) with rfl | hx
          · omega
          · exact hother x hx
        · exact (hperm.cons other).trans (List.Perm.swap session other rest)

/-- A session of the default id is not inserted. -/
theorem insertSession_zero (hfirst : table.head? = some defSession)
    (h : LogTrace.insertSession session table = some table') : 0 < session.num := by
  cases table with
  | nil => cases hfirst
  | cons other rest =>
    obtain rfl := Option.some.inj hfirst
    unfold LogTrace.insertSession at h
    by_contra hzero
    rw [if_neg (by simp [defSession]), if_pos (by simp only [defSession]; omega)] at h
    cases h

structure LogTraceInv (s : LogTrace) : Prop where
  table : s.TableRight
  cache : s.cache ∈ s.sessions

theorem sorted_lt (hsorted : table.Pairwise fun a b => a.num < b.num) {i j : Nat} (hij : i < j)
    (hx : table[i]? = some x) (hy : table[j]? = some y) : x.num < y.num := by
  obtain ⟨hi, rfl⟩ := List.getElem?_eq_some_iff.mp hx
  obtain ⟨hj, rfl⟩ := List.getElem?_eq_some_iff.mp hy
  exact List.pairwise_iff_getElem.mp hsorted i j hi hj hij

theorem sorted_unique (hsorted : table.Pairwise fun a b => a.num < b.num) (hx : x ∈ table)
    (hy : y ∈ table) (h : x.num = y.num) : x = y := by
  obtain ⟨i, hi⟩ := List.mem_iff_getElem?.mp hx
  obtain ⟨j, hj⟩ := List.mem_iff_getElem?.mp hy
  rcases Nat.lt_trichotomy i j with hij | rfl | hij
  · exact absurd h (sorted_lt hsorted hij hi hj).ne
  · exact Option.some.inj (hi.symm.trans hj)
  · exact absurd h (sorted_lt hsorted hij hj hi).ne'

/-- The search among the entries between those known to be below the id and those known to be above. -/
theorem searchLoop_spec (hsorted : s.sessions.Pairwise fun a b => a.num < b.num)
    (hfuel : last - first < fuel) (hlt : first < last) (hlast : last ≤ s.sessions.length)
    (hbelow : ∀ k ≤ first, ∀ x ∈ s.sessions[k]?, x.num < num)
    (habove : ∀ k, last ≤ k → ∀ x ∈ s.sessions[k]?, num < x.num) :
    ∃ r, s.searchLoop num fuel first last = some r ∧
      ∀ x, r = some x ↔ x ∈ s.sessions ∧ x.num = num := by
  induction fuel generalizing first last with
  | zero => exact absurd hfuel (Nat.not_lt_zero _)
  | succ fuel ih =>
    obtain ⟨session, hsession⟩ : ∃ session, s.sessions[(first + last) / 2]? = some session :=
      ⟨_, List.getElem?_eq_getElem (by omega)⟩
    -- What the comparison tells of one entry holds of all on its side.
    have hbelow' : session.num < num →
        ∀ k ≤ (first + last) / 2, ∀ x ∈ s.sessions[k]?, x.num < num := by
      intro hless k hk x hx
      rcases Nat.lt_or_eq_of_le hk with hlt | rfl
      · exact (sorted_lt hsorted hlt hx hsession).trans hless
      · obtain rfl := Option.some.inj (hsession.symm.trans hx)
        exact hless
    have habove' : num < session.num →
        ∀ k, (first + last) / 2 ≤ k → ∀ x ∈ s.sessions[k]?, num < x.num := by
      intro hmore k hk x hx
      rcases Nat.lt_or_eq_of_le hk with hlt | rfl
      · exact hmore.trans (sorted_lt hsorted hlt hsession hx)
      · obtain rfl := Option.some.inj (hsession.symm.trans hx)
        exact hmore
    have hnone : ∀ m : Nat, (∀ k < m, ∀ x ∈ s.sessions[k]?, x.num < num) →
        (∀ k, m ≤ k → ∀ x ∈ s.sessions[k]?, num < x.num) →
        ∀ x : LogSession, none = some x ↔ x ∈ s.sessions ∧ x.num = num := by
      intro m hlow hhigh x
      refine ⟨fun h => absurd h (by simp), fun h => ?_⟩
      obtain ⟨k, hk⟩ := List.mem_iff_getElem?.mp h.1
      rcases Nat.lt_or_ge k m with hkm | hkm
      · exact absurd h.2 (hlow k hkm x hk).ne
      · exact absurd h.2 (hhigh k hkm x hk).ne'
    simp only [LogTrace.searchLoop, hsession, Option.bind_eq_bind, Option.bind_some]
    by_cases heq : session.num = num
    · refine ⟨some session, by rw [if_pos heq], fun x => ⟨fun h => ?_, fun h => ?_⟩⟩
      · obtain rfl := Option.some.inj h
        exact ⟨List.mem_of_getElem? hsession, heq⟩
      · obtain ⟨k, hk⟩ := List.mem_iff_getElem?.mp h.1
        rcases Nat.lt_trichotomy k ((first + last) / 2) with hlt | rfl | hlt
        · exact absurd (sorted_lt hsorted hlt hk hsession) (by omega)
        · exact hsession.symm.trans hk
        · exact absurd (sorted_lt hsorted hlt hsession hk) (by omega)
    · rw [if_neg heq]
      by_cases hmore : num < session.num
      · rw [if_pos hmore]
        -- The entry at the lower end is below the id, so the one compared is not it.
        have hfirst : first < (first + last) / 2 := by
          by_contra hle
          exact absurd (hbelow _ (by omega) _ hsession) (by omega)
        show ∃ r, (if (first : Int) ≠ ((first + last) / 2 : Nat) - 1 then
          s.searchLoop num fuel first ((first + last) / 2) else some none) = some r ∧ _
        by_cases hend : (first : Int) ≠ ((first + last) / 2 : Nat) - 1
        · rw [if_pos hend]
          exact ih (by omega) hfirst (by omega) hbelow (habove' hmore)
        · rw [if_neg hend]
          refine ⟨none, rfl, hnone ((first + last) / 2) (fun k hk => hbelow k ?_) (habove' hmore)⟩
          omega
      · rw [if_neg hmore]
        have hless : session.num < num := by omega
        show ∃ r, (if (((first + last) / 2 : Nat) : Int) ≠ last - 1 then
          s.searchLoop num fuel ((first + last) / 2) last else some none) = some r ∧ _
        by_cases hend : (((first + last) / 2 : Nat) : Int) ≠ last - 1
        · rw [if_pos hend]
          exact ih (by omega) (by omega) hlast (hbelow' hless) habove
        · rw [if_neg hend]
          refine ⟨none, rfl, hnone last (fun k hk => hbelow' hless k ?_) habove⟩
          omega

theorem lgLookupSession_cached (h : s.cache.num = num) :
    s.lgLookupSession num = some (some s.cache, s) :=
  if_pos h

theorem lgLookupSession_searched {r : Option LogSession} (h : s.cache.num ≠ num)
    (hsearch : s.searchLoop num (s.sessions.length + 1) 0 s.sessions.length = some r) :
    s.lgLookupSession num = some (r, { s with cache := r.getD s.cache }) := by
  unfold LogTrace.lgLookupSession
  rw [if_neg h, hsearch]
  cases r <;> rfl

/-- A lookup changes nothing but the cache, to the session it returns. -/
theorem lgLookupSession_state {r : Option LogSession} (h : s.lgLookupSession num = some (r, s')) :
    s' = { s with cache := r.getD s.cache } := by
  by_cases hhit : s.cache.num = num
  · rw [lgLookupSession_cached hhit] at h
    obtain ⟨rfl, rfl⟩ := Prod.mk.inj (Option.some.inj h)
    rfl
  · obtain ⟨found, hsearch⟩ : ∃ found,
        s.searchLoop num (s.sessions.length + 1) 0 s.sessions.length = some found := by
      unfold LogTrace.lgLookupSession at h
      rw [if_neg hhit] at h
      obtain ⟨found, hsearch, -⟩ := Option.bind_eq_some_iff.mp h
      exact ⟨found, hsearch⟩
    rw [lgLookupSession_searched hhit hsearch] at h
    obtain ⟨rfl, rfl⟩ := Prod.mk.inj (Option.some.inj h)
    rfl

/-- Only the entry at the open lower end is never compared, so an id other than 0 is looked up right. -/
theorem LogTraceInv.lookup_right (hinv : LogTraceInv s) (h : num ≠ 0 ∨ s.cache = defSession) :
    s.LookupRight num := by
  obtain ⟨⟨hsorted, hfirst, -⟩, hcache⟩ := hinv
  have hdefault : s.sessions[0]? = some defSession := by rwa [← List.head?_eq_getElem?]
  by_cases hhit : s.cache.num = num
  · refine ⟨_, _, lgLookupSession_cached hhit, fun x => ⟨fun h => ?_, fun h => ?_⟩⟩
    · obtain rfl := Option.some.inj h
      exact ⟨hcache, hhit⟩
    · rw [sorted_unique hsorted h.1 hcache (h.2.trans hhit.symm)]
  · have hnum : 0 < num := by
      rcases h with h | h
      · omega
      · rw [h] at hhit
        simp only [defSession] at hhit
        omega
    have hlength := (List.getElem?_eq_some_iff.mp hdefault).1
    obtain ⟨r, hsearch, hr⟩ := searchLoop_spec hsorted
      (show s.sessions.length - 0 < s.sessions.length + 1 by omega) hlength le_rfl
      (fun k hk x hx => by
        obtain rfl := Nat.le_zero.mp hk
        obtain rfl := Option.some.inj (hdefault.symm.trans hx)
        exact hnum)
      (fun k hk x hx => by
        rw [List.getElem?_eq_none hk] at hx
        cases hx)
    exact ⟨r, _, lgLookupSession_searched hhit hsearch, hr⟩

/-- Every entry but the one of index 0, which is never compared, is above the id 0. -/
theorem searchLoop_zero (hsorted : s.sessions.Pairwise fun a b => a.num < b.num) (hfuel : last < fuel)
    (hlt : 1 < last) (hlast : last ≤ s.sessions.length) : s.searchLoop 0 fuel 0 last = some none := by
  induction fuel generalizing last with
  | zero => exact absurd hfuel (Nat.not_lt_zero _)
  | succ fuel ih =>
    have hat : (0 + last) / 2 < s.sessions.length := by omega
    have habove : 0 < s.sessions[(0 + last) / 2].num := by
      refine Nat.zero_lt_of_lt (List.pairwise_iff_getElem.mp hsorted 0 _ ?_ hat ?_)
      · omega
      · omega
    simp only [LogTrace.searchLoop, List.getElem?_eq_getElem hat, Option.bind_eq_bind, Option.bind_some]
    rw [if_neg habove.ne', if_pos habove]
    show (if ((0 : Nat) : Int) ≠ ((0 + last) / 2 : Nat) - 1 then s.searchLoop 0 fuel 0 ((0 + last) / 2)
      else some none) = some none
    split
    next => exact ih (by omega) (by omega) hat.le
    next => rfl

theorem LogTraceInv.lookup_zero (hinv : LogTraceInv s) (h : s.cache ≠ defSession) :
    s.lgLookupSession 0 = some (none, s) := by
  obtain ⟨⟨hsorted, hfirst, -⟩, hcache⟩ := hinv
  have hdefault : defSession ∈ s.sessions := List.mem_of_head? hfirst
  have hmiss : s.cache.num ≠ 0 := fun hnum => h (sorted_unique hsorted hcache hdefault hnum)
  have hlength : 1 < s.sessions.length := by
    by_contra hle
    obtain ⟨only, honly⟩ := List.length_eq_one_iff.mp
      (Nat.le_antisymm (Nat.le_of_not_lt hle) (List.length_pos_of_mem hcache))
    rw [honly, List.mem_singleton] at hcache hdefault
    exact h (hcache.trans hdefault.symm)
  exact lgLookupSession_searched hmiss (searchLoop_zero hsorted (Nat.lt_succ_self _) hlength le_rfl)

theorem LogTraceInv.lookup_right_iff (hinv : LogTraceInv s) :
    s.LookupRight num ↔ num ≠ 0 ∨ s.cache = defSession := by
  refine ⟨fun h => ?_, hinv.lookup_right⟩
  by_contra hnot
  push Not at hnot
  obtain ⟨rfl, hcache⟩ := hnot
  obtain ⟨session, s', hlookup, hright⟩ := h
  rw [hinv.lookup_zero hcache] at hlookup
  obtain ⟨rfl, rfl⟩ := Prod.mk.inj (Option.some.inj hlookup)
  exact absurd ((hright defSession).mpr ⟨List.mem_of_head? hinv.table.first, rfl⟩) (by simp)

theorem LogTraceInv.register (hinv : LogTraceInv s) (session : Option LogSession) :
    LogTraceInv (s.logTraceRegisterSession c session).2 := by
  obtain ⟨⟨hsorted, hfirst, honce⟩, hcache⟩ := hinv
  unfold LogTrace.logTraceRegisterSession
  split
  next => exact ⟨⟨hsorted, hfirst, honce⟩, hcache⟩
  next =>
    split
    next => exact ⟨⟨hsorted, hfirst, honce⟩, hcache⟩
    next session =>
      split
      next => exact ⟨⟨hsorted, hfirst, honce⟩, hcache⟩
      next sessions hinsert =>
        obtain ⟨hsorted', hperm, hhead⟩ := insertSession_spec hsorted hinsert
        refine ⟨⟨hsorted', hhead _ hfirst (insertSession_zero hfirst hinsert), ?_⟩, ?_⟩
        · exact (hperm.trans (honce.cons session)).trans (List.Perm.swap _ _ _)
        · exact hperm.mem_iff.mpr (List.mem_cons_of_mem _ hcache)

theorem LogTraceInv.lookup (hinv : LogTraceInv s) (num : Nat) :
    ∃ s', logTraceStep c s (.lookup num) = some s' ∧ LogTraceInv s' := by
  by_cases h : num ≠ 0 ∨ s.cache = defSession
  · obtain ⟨session, s', hlookup, hright⟩ := hinv.lookup_right h
    refine ⟨s', by rw [logTraceStep, hlookup]; rfl, ?_⟩
    obtain rfl := lgLookupSession_state hlookup
    refine ⟨⟨hinv.table.sorted, hinv.table.first, hinv.table.once⟩, ?_⟩
    cases session with
    | none => exact hinv.cache
    | some found => exact ((hright found).mp rfl).1
  · push Not at h
    obtain ⟨rfl, hcache⟩ := h
    exact ⟨s, by rw [logTraceStep, hinv.lookup_zero hcache]; rfl, hinv⟩

theorem logTraceInit_inv : LogTraceInv logTraceInit :=
  ⟨⟨List.pairwise_singleton _ _, rfl, List.Perm.refl _⟩, List.mem_singleton.mpr rfl⟩

theorem LogTraceInv.run (hinv : LogTraceInv s) (as : List LogTraceAction) :
    ∃ s', runFrom (logTraceStep c) as s = some s' ∧ LogTraceInv s' := by
  induction as generalizing s with
  | nil => exact ⟨s, rfl, hinv⟩
  | cons a as ih =>
    obtain ⟨s1, hstep, hinv1⟩ : ∃ s1, logTraceStep c s a = some s1 ∧ LogTraceInv s1 := by
      cases a with
      | register session => exact ⟨_, rfl, hinv.register session⟩
      | lookup num => exact hinv.lookup num
    obtain ⟨s', hrun, hinv'⟩ := ih hinv1
    exact ⟨s', by rw [runFrom, hstep]; exact hrun, hinv'⟩

/-- Every run leaves the table right, and a lookup in the state reached is right unless it is for the
default session after another session has been looked up with success. -/
theorem log_sessions_right_iff (c : LogTraceConfig) (as : List LogTraceAction) :
    ∃ s, runFrom (logTraceStep c) as logTraceInit = some s ∧ s.TableRight ∧
      ∀ num, s.LookupRight num ↔ num ≠ 0 ∨ s.cache = defSession := by
  obtain ⟨s, hrun, hinv⟩ := logTraceInit_inv.run as
  exact ⟨s, hrun, hinv.table, fun num => hinv.lookup_right_iff⟩

/-- After session 1 has been looked up, the default session is not found although it is in the table. -/
theorem cached_default_not_found : ∃ s,
    runFrom (logTraceStep ⟨16, by decide, by decide⟩) [.register (some ⟨256, 1⟩), .lookup 1] logTraceInit = some s ∧
      defSession ∈ s.sessions ∧ s.lgLookupSession 0 = some (none, s) ∧ ¬ s.LookupRight 0 := by
  refine ⟨⟨[defSession, ⟨256, 1⟩], ⟨256, 1⟩, [⟨256, 1⟩]⟩, by decide, by decide, by decide, ?_⟩
  rintro ⟨session, s', hlookup, hright⟩
  obtain rfl := (hright defSession).mpr (by decide)
  have hnone : LogTrace.lgLookupSession ⟨[defSession, ⟨256, 1⟩], ⟨256, 1⟩, [⟨256, 1⟩]⟩ 0 =
      some (none, ⟨[defSession, ⟨256, 1⟩], ⟨256, 1⟩, [⟨256, 1⟩]⟩) := by decide
  exact absurd (hnone.symm.trans hlookup) (by simp)

end

end RTThread
