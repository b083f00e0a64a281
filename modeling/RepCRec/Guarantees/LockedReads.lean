import RepCRec.Engine.Progress
import RepCRec.Guarantees.Replication
import RepCRec.Refinement.History

/-!
The reads of transactions that are not read-only. A read that is granted takes the value of the
first site that the loop over the sites visits, which may be any site that is up: it is the value
that was committed last for sure exactly when the copies at all these sites are readable
(`locked_reads_current`). A site that has recovered is up, but its replicated copies are not
readable before the next commit (`locked_read_stale`).
-/

namespace RepCRec

open Container (IterOrder bind_eq_ok ok_bind)

namespace State

variable {σ σ' : State} {T : TranId} {v : VarId} {o : IterOrder} {ts : Timestamp} {t : Transaction}

/-- Nobody holds a lock on a copy of `v` at a site that is up. -/
def NoLocks (σ : State) (v : VarId) : Prop :=
  ∀ s ∈ copySites v, σ.isWriteAvailable s = true →
    (σ.getVariable s v).exclusiveLockOwner = none ∧ (σ.getVariable s v).sharedLockOwners = []

/-- When a replicated variable is free for a read, all its copies at sites that are up are
readable. -/
def CopiesReadable (σ : State) (v : VarId) : Prop :=
  v.isOdd = false → σ.NoLocks v → ∀ s, σ.isWriteAvailable s = true → σ.isReadAvailable s v = true

/-- Whatever the order in which the sites are visited, the read of `v` takes the value that was
committed last, from a readable copy. -/
def ReadsCurrent (σ : State) (ts : Timestamp) (T : TranId) (v : VarId) : Prop :=
  ∀ o σ' es s x, σ.exec o (.read ts T v) = .ok σ' → σ'.trace = σ.trace ++ es →
    .reads T s v x ∈ es → σ.isReadAvailable s v = true ∧ x = committed σ.trace v

/-- The lock on a replicated variable is available exactly when nobody holds a lock. -/
lemma status_available_iff (hg : σ.Good) (hv : v.isOdd = false) :
    (σ.tryAcquireWriteLock T v).status = .availableToAssign ↔ σ.NoLocks v := by
  constructor
  · intro hst s hs hup
    have hfree := available_free hg hst s (mem_copySites.mp hs) hup
    refine ⟨?_, List.eq_nil_iff_forall_not_mem.mpr fun T' => (hfree T').2⟩
    by_contra hne
    obtain ⟨T', hT'⟩ := Option.ne_none_iff_exists'.mp hne
    exact (hfree T').1 hT'
  · intro hno
    rcases tryAcquireWriteLock_answer σ T v with ⟨hodd, -⟩ | ha
    · simp [hv] at hodd
    generalize σ.tryAcquireWriteLock T v = ls at ha ⊢
    cases ha with
    | waits hs hup hc =>
        obtain ⟨hx, hsh⟩ := hno _ hs hup
        simp [Conflicts, Variable.hasSharedLockExcludeSelf, Variable.hasExclusiveLockExcludeSelf,
          Variable.hasSharedLock, hx, hsh] at hc
    | owns hs hup ho =>
        obtain ⟨hx, -⟩ := hno _ hs hup
        simp [Variable.hasExclusiveLock, hx] at ho
    | grants _ _ _ hst =>
        refine hst.mpr ⟨rfl, fun s hs hup => ?_⟩
        simp [Variable.hasSharedLock, (hno s hs hup).2]

/-- A free replicated variable may be read at any site that is up. -/
lemma exists_exec_read (ht : σ.transactions.lookup T = some t) (hro : t.isReadOnly = false)
    (hv : v.isOdd = false) (hst : (σ.tryAcquireWriteLock T v).status = .availableToAssign)
    {s : SiteId} (hs : s ∈ (σ.tryAcquireWriteLock T v).siteIdSet) :
    ∃ o σ' es, σ.exec o (.read ts T v) = .ok σ' ∧ σ'.trace = σ.trace ++ es ∧
      .reads T s v (σ.getVariable s v).value ∈ es := by
  obtain ⟨o, l, hl⟩ := IterOrder.exists_visit_eq_cons hs
  have hlive : T ∈ (σ.readFirst T v (s :: l)).transactions :=
    AList.lookup_isSome.mp (by simp [readFirst, ht])
  obtain ⟨σ₁, h1, -⟩ := exists_assignShareLock (o := o) (v := v) hlive
    (σ.tryAcquireWriteLock T v).siteIdSet
  rw [← hl] at h1
  have hout : Outcome o σ (.read ts T v) _ _ := .sharesEven ht hro hv hst h1
  refine ⟨o, _, _, ?_, hout.trace, ?_⟩
  · rw [exec, execRead, getTransaction_eq_ok.mpr ht, ok_bind, hro, if_neg Bool.false_ne_true,
      handleReadRequest, getTransaction_eq_ok.mpr ht, ok_bind]
    simp only [hv, Bool.false_eq_true, if_false, hst, h1, ok_bind]
    rfl
  · rw [hl]
    exact List.mem_append_left _ List.mem_cons_self

/-- **A read is current** in every order of the sites exactly when all copies at sites that are
up are readable, once it is granted. -/
theorem Good.readsCurrent_iff (hg : σ.Good) (ht : σ.transactions.lookup T = some t)
    (hro : t.isReadOnly = false) : σ.ReadsCurrent ts T v ↔ σ.CopiesReadable v := by
  constructor
  · intro h hv hno s hup
    have hst := (status_available_iff (T := T) hg hv).mpr hno
    have hs := (granted_sites (Or.inr hst) s).mpr ⟨mem_copies_of_even hv s, hup⟩
    obtain ⟨o, σ', es, hx, htr, hes⟩ := exists_exec_read ht hro hv hst hs
    exact (h o σ' es s _ hx htr hes).1
  · intro h o σ' es s x hx htr hes
    obtain ⟨es', hout⟩ := exec_outcome hx
    obtain rfl : es = es' := List.append_cancel_left (htr.symm.trans hout.trace)
    obtain ⟨ts, t₁, -, ht₁, hcase⟩ := hout.reads_mem hes
    rw [ht] at ht₁
    cases ht₁
    simp only [hro, Bool.false_eq_true, false_and, true_and, false_or] at hcase
    obtain ⟨hst, hs, rfl, hodd⟩ := hcase
    obtain ⟨hc, hup⟩ := (granted_sites (Or.inr hst) s).mp hs
    have hr : σ.isReadAvailable s v = true := by
      cases hv : v.isOdd with
      | true => exact hodd hv
      | false => exact h hv ((status_available_iff hg hv).mp hst) s hup
    exact ⟨hr, hg.inv.one_copy hc hr⟩

end State

section Runs

variable {l : List Feed}

/-- The run executes a read of a transaction that is not read-only. -/
def LockedReadDuring (l : List Feed) (ts : Timestamp) (T : TranId) (v : VarId) (τ : State) : Prop :=
  CalledDuring l (.read ts T v) τ ∧ ∃ t, τ.transactions.lookup T = some t ∧ t.isReadOnly = false

/-- **Locked reads.** A read of a transaction that is not read-only takes the value that was
committed last, from a readable copy, exactly when a variable that is free for it has readable
copies at all sites that are up; so where this holds of all reads, they all are current. -/
theorem locked_reads_current (ha : Admissible l) :
    (∀ ts T v τ, LockedReadDuring l ts T v τ → (τ.ReadsCurrent ts T v ↔ τ.CopiesReadable v)) ∧
    ((∀ ts T v τ, LockedReadDuring l ts T v τ → τ.CopiesReadable v) →
      ∀ σ tr₁ tr₂ T s v x, Reaches l σ → σ.trace = tr₁ ++ .reads T s v x :: tr₂ →
        .created T false ∈ tr₁ → x = committed tr₁ v) := by
  have hiff : ∀ ts T v τ, LockedReadDuring l ts T v τ →
      (τ.ReadsCurrent ts T v ↔ τ.CopiesReadable v) := by
    rintro ts T v τ ⟨hc, t, ht, hro⟩
    exact (good_called ha hc).readsCurrent_iff ht hro
  refine ⟨hiff, fun h σ tr₁ tr₂ T s v x hr htr hcr => ?_⟩
  rcases traced_reaches ha hr tr₁ _ tr₂ htr with ⟨T', hT'⟩ |
    ⟨r, τ, o, τ', es₁, es₂, hc, hx, hout, rfl⟩
  · cases hT'
  have hes : Event.reads T s v x ∈ es₁ ++ .reads T s v x :: es₂ := by simp
  obtain ⟨ts, t, rfl, ht, -⟩ := hout.reads_mem hes
  obtain ⟨B, hB⟩ := created_called hc ha
  -- the entry for the begin of `T` is older than the read
  have hcr' : .created T false ∈ τ.trace := by
    refine (List.mem_append.mp hcr).resolve_right fun hmem => ?_
    obtain ⟨ts', hr'⟩ := hout.created_mem (List.mem_append_left _ hmem)
    cases hr'
  have hro : t.isReadOnly = false := hB.unique (hB.live ht) hcr'
  have hd : LockedReadDuring l ts T v τ := ⟨hc, t, ht, hro⟩
  have hcur := (hiff ts T v τ hd).mpr (h ts T v τ hd)
  rw [committed_append_of_ne]
  · exact (hcur o τ' _ s x hx hout.trace hes).2
  · intro T' s' v' x' ts' hmem
    have hi := (hout.installs_mem (List.mem_append_left _ hmem)).1
    cases hi

/-- A run whose first transaction reads a replicated variable. -/
def readRun : List Feed := inOrder Schedule.stored [.begin 1, .read 1 2]

theorem locked_reads_current_readRun :
    ∃ τ, LockedReadDuring readRun 1 1 x2 τ ∧ τ.ReadsCurrent 1 1 x2 := by
  obtain ⟨τ, hc, hf⟩ := exists_calledDuring (l := inOrder Schedule.stored [.begin 1])
    (x := ⟨.read 1 2, 1, Schedule.stored⟩) (r := .read 1 1 x2)
    (f := fun τ => ((τ.transactions.lookup 1).map Transaction.isReadOnly,
      SiteId.all.all fun s => τ.isReadAvailable s x2)) (a := (some false, true)) []
    (by decide +kernel)
  rw [Prod.mk.injEq, List.all_eq_true] at hf
  have hd : LockedReadDuring readRun 1 1 x2 τ := ⟨hc, Option.map_eq_some_iff.mp hf.1⟩
  refine ⟨τ, hd, ((locked_reads_current (by decide +kernel)).1 1 1 x2 τ hd).mpr fun _ _ s _ => ?_⟩
  exact hf.2 s (SiteId.mem_all s)

/-- The first site fails and misses a commit of the second variable, which the second transaction
reads after the recovery of the site. -/
def staleRun : List Feed :=
  inOrder Schedule.stored
    [.fail 1, .begin 1, .write 1 2 7, .finish 1, .recover 1, .begin 2, .read 2 2]

/-- **A stale read**: a loop that visits the recovered site first reads the old value there. -/
theorem locked_read_stale : Admissible staleRun ∧
    ∃ τ, LockedReadDuring staleRun 6 2 x2 τ ∧ committed τ.trace x2 = 7 ∧
      ¬τ.ReadsCurrent 6 2 x2 ∧ ∃ o σ' es, τ.exec o (.read 6 2 x2) = .ok σ' ∧
        σ'.trace = τ.trace ++ es ∧ .reads 2 s1 x2 20 ∈ es := by
  obtain ⟨τ, hc, hf⟩ := exists_calledDuring (l := staleRun.take 6)
    (x := ⟨.read 2 2, 6, Schedule.stored⟩) (r := .read 6 2 x2)
    (f := fun τ => ((τ.transactions.lookup 2).map Transaction.isReadOnly, committed τ.trace x2,
      (τ.exec IterOrder.reversed (.read 6 2 x2)).toOption.map fun σ' : State =>
        σ'.trace.drop τ.trace.length))
    (a := (some false, 7, some [.reads 2 s1 x2 20, .sharedLock 2 x2 SiteId.all.tail.reverse])) []
    (by decide +kernel)
  simp only [Prod.mk.injEq] at hf
  obtain ⟨hro, hdb, hx⟩ := hf
  obtain ⟨σ', hx, hdrop⟩ := exists_ok_of_eval hx
  obtain ⟨es, hout⟩ := State.exec_outcome hx
  rw [hout.trace, List.drop_left] at hdrop
  have hes : .reads 2 s1 x2 20 ∈ es := hdrop ▸ List.mem_cons_self
  refine ⟨by decide +kernel, τ, ⟨hc, Option.map_eq_some_iff.mp hro⟩, hdb, fun h => ?_, _, σ', _,
    hx, hout.trace, hes⟩
  have h20 := (h _ _ _ _ _ hx hout.trace hes).2
  rw [hdb] at h20
  exact absurd h20 (by decide)

end Runs

end RepCRec
