import RepCRec.Guarantees.Ghosts
import RepCRec.Refinement.Blocking
import RepCRec.Refinement.Serving

/-!
What the lock manager answers in the states of a run.

* `refused_lock_owners`: a refused lock names other live transactions that hold locks on copies of
  the variable, unless the transaction that asks for it shares the first locked copy and is waited
  for; then it is made to wait for itself (`upgrade_waits_for_itself`).
* `read_waits_iff`: a read is sent to wait as a write would be, so it agrees with the shared lock
  that `tryAcquireReadLock` would grant exactly when no other transaction shares the variable, or
  another one writes it.
-/

namespace RepCRec

open Container (IterOrder bind_eq_ok ok_bind)

namespace State

variable {o : IterOrder} {σ σ' : State} {T T' X : TranId} {v : VarId} {s : SiteId} {ts : Timestamp}
  {t : Transaction}

lemma mem_waitOwners_iff {x : Variable} : X ∈ waitOwners x T ↔
    (x.hasExclusiveLockExcludeSelf T = true ∧ x.exclusiveLockOwner = some X) ∨
      (x.hasSharedLockExcludeSelf T = true ∧ X ∈ x.sharedLockOwners) ∨
      (x.hasSharedLock T = true ∧ X = T) := by
  rw [waitOwners, List.mem_union_iff, List.mem_union_iff, or_assoc]
  refine or_congr ?_ (or_congr ?_ ?_)
  · split_ifs with h <;> simp [h]
  · split_ifs with h <;> simp [h]
  · split_ifs with h <;> simp [h]

lemma hasExclusiveLockExcludeSelf_iff {x : Variable} : x.hasExclusiveLockExcludeSelf T = true ↔
    ∃ X, x.exclusiveLockOwner = some X ∧ X ≠ T := by
  rw [Variable.hasExclusiveLockExcludeSelf]
  cases x.exclusiveLockOwner <;> simp

lemma hasSharedLockExcludeSelf_iff {x : Variable} : x.hasSharedLockExcludeSelf T = true ↔
    (∃ X, X ∈ x.sharedLockOwners) ∧ T ∉ x.sharedLockOwners := by
  rw [Variable.hasSharedLockExcludeSelf, Bool.and_eq_true, Bool.not_eq_true', Bool.not_eq_true',
    decide_eq_false_iff_not, List.isEmpty_eq_false_iff_exists_mem]

/-- The owners of a copy that stands in the way of `T` are others, or `T` alone, which shares the
copy while another transaction waits for it. -/
lemma Good.owners_of_blocks (hg : σ.Good) (hb : σ.Blocks T v s) :
    (waitOwners (σ.getVariable s v) T ≠ [] ∧
      ∀ X ∈ waitOwners (σ.getVariable s v) T, X ≠ T ∧ σ.Owns X s v) ∨
    (waitOwners (σ.getVariable s v) T = [T] ∧ T ∈ (σ.getVariable s v).sharedLockOwners ∧
      σ.isWaitingForOthers T = true) := by
  by_cases hT : T ∈ (σ.getVariable s v).sharedLockOwners
  · have hexcl : (σ.getVariable s v).hasExclusiveLockExcludeSelf T = false := by
      rw [← Bool.not_eq_true, hasExclusiveLockExcludeSelf_iff]
      rintro ⟨X, hX, -⟩
      exact hg.inv.excl_shared (T := X) (s := s) (v := v) hX hT
    have hshared : (σ.getVariable s v).hasSharedLockExcludeSelf T = false := by
      rw [← Bool.not_eq_true, hasSharedLockExcludeSelf_iff]
      exact fun h => h.2 hT
    have hself : (σ.getVariable s v).hasSharedLock T = true := decide_eq_true hT
    refine Or.inr ⟨?_, hT, ?_⟩
    · rw [waitOwners, hexcl, hshared, hself]
      rfl
    · rw [Blocks, hexcl, hshared] at hb
      simpa [hself] using hb
  · have hself : (σ.getVariable s v).hasSharedLock T = false := decide_eq_false hT
    refine Or.inl ⟨?_, fun X hX => ?_⟩
    · rcases hb with hsh | hex | ⟨hsh, -⟩
      · obtain ⟨⟨X, hX⟩, -⟩ := hasSharedLockExcludeSelf_iff.mp hsh
        exact List.ne_nil_of_mem (mem_waitOwners_iff.mpr (Or.inr (Or.inl ⟨hsh, hX⟩)))
      · obtain ⟨X, hX, -⟩ := hasExclusiveLockExcludeSelf_iff.mp hex
        exact List.ne_nil_of_mem (mem_waitOwners_iff.mpr (Or.inl ⟨hex, hX⟩))
      · rw [hself] at hsh
        cases hsh
    · rcases mem_waitOwners_iff.mp hX with ⟨hex, hX⟩ | ⟨-, hX⟩ | ⟨hsh, -⟩
      · obtain ⟨Y, hY, hne⟩ := hasExclusiveLockExcludeSelf_iff.mp hex
        rw [hX, Option.some.injEq] at hY
        exact ⟨hY ▸ hne, Or.inl hX⟩
      · exact ⟨fun heq => hT (heq ▸ hX), Or.inr hX⟩
      · rw [hself] at hsh
        cases hsh

/-- A lock on `v` that is refused to `T` is refused in the name of other live transactions, which
hold locks on copies of `v` at sites that are up. -/
def RefusedForOthers (σ : State) (T : TranId) (v : VarId) : Prop :=
  (σ.tryAcquireWriteLock T v).status = .needToWait →
    (σ.tryAcquireWriteLock T v).ownerIdSet ≠ [] ∧
    ∀ X ∈ (σ.tryAcquireWriteLock T v).ownerIdSet, X ≠ T ∧ X ∈ σ.transactions ∧
      ∃ s ∈ copySites v, σ.isWriteAvailable s = true ∧ σ.Owns X s v

/-- Another transaction waits for `T`, which shares the first locked copy of `v`. -/
def AwaitedUpgrade (σ : State) (T : TranId) (v : VarId) : Prop :=
  σ.isWaitingForOthers T = true ∧
    ∃ s, σ.FirstLocked v (copySites v) s ∧ T ∈ (σ.getVariable s v).sharedLockOwners

/-- An awaited upgrade is refused in the name of `T` itself. -/
lemma AwaitedUpgrade.names_self (ha : σ.AwaitedUpgrade T v) :
    (σ.tryAcquireWriteLock T v).status = .needToWait ∧
      T ∈ (σ.tryAcquireWriteLock T v).ownerIdSet := by
  obtain ⟨hw, s, hs, hT⟩ := ha
  have hself : (σ.getVariable s v).hasSharedLock T = true := decide_eq_true hT
  rcases tryAcquireWriteLock_awaited (v := v) hw with ⟨hno, -⟩ | ⟨s', hs', ha⟩
  · obtain ⟨l₁, l₂, hl, hlocked, -⟩ := hs
    exact absurd hlocked (hno s (hl ▸ by simp))
  · obtain rfl := hs.unique hs'
    rcases ha with ⟨-, hst, heq⟩ | ⟨hno, -⟩
    · exact ⟨hst, heq ▸ mem_waitOwners_iff.mpr (Or.inr (Or.inr ⟨hself, rfl⟩))⟩
    · exact absurd (Or.inr (Or.inr hself)) hno

/-- **A refused lock names others** unless it is an awaited upgrade. -/
theorem Good.refusedForOthers_iff (hg : σ.Good) :
    σ.RefusedForOthers T v ↔ ¬σ.AwaitedUpgrade T v := by
  constructor
  · intro h ha
    obtain ⟨hst, hT⟩ := ha.names_self
    exact ((h hst).2 T hT).1 rfl
  · intro hno hst
    obtain ⟨s, hs, hup, hb, heq⟩ := tryAcquireWriteLock_waits hst
    rcases hg.owners_of_blocks hb with ⟨hne, hown⟩ | ⟨hself, -, hw⟩
    · rw [heq]
      refine ⟨hne, fun X hX => ⟨(hown X hX).1, hg.live_of_owns (hown X hX).2, s, hs, hup, ?_⟩⟩
      exact (hown X hX).2
    · -- the first locked copy has refused the lock in the name of `T`, which therefore shares it
      exfalso
      rcases tryAcquireWriteLock_awaited (v := v) hw with ⟨-, hst'⟩ | ⟨s', hs', ha⟩
      · exact hst' hst
      · rcases ha with ⟨-, -, heq'⟩ | ⟨-, hst'⟩
        · have hT : T ∈ waitOwners (σ.getVariable s' v) T := by
            rw [← heq', heq, hself]
            exact List.mem_singleton_self T
          exact hno ⟨hw, s', hs', (mem_waitOwners hT).resolve_left fun h => h.2 rfl⟩
        · rw [hst] at hst'
          cases hst'

/-- A transaction that alone holds locks on `v` is not refused one in the name of others. -/
lemma RefusedForOthers.not_alone (h : σ.RefusedForOthers T v)
    (halone : ∀ X, ∀ s ∈ copySites v, σ.isWriteAvailable s = true → σ.Owns X s v → X = T) :
    (σ.tryAcquireWriteLock T v).status ≠ .needToWait := by
  intro hst
  obtain ⟨hne, hown⟩ := h hst
  obtain ⟨X, hX⟩ := List.exists_mem_of_ne_nil _ hne
  obtain ⟨hXT, -, s, hs, hup, ho⟩ := hown X hX
  exact hXT (halone X s hs hup ho)

/-! ### Edges from a transaction to itself -/

/-- A read that is refused a lock is made to wait for the owners. -/
lemma handleReadRequest_of_needToWait (hT : T ∈ σ.transactions)
    (hr : v.isOdd = true → σ.isReadAvailable v.home v = true)
    (hst : (σ.tryAcquireWriteLock T v).status = .needToWait) :
    σ.handleReadRequest o ts T v =
      .ok (((σ.assignWaitForGraph o T
        (σ.tryAcquireWriteLock T v).ownerIdSet).addRequestToBlockedQueue
        (.read ts T v)).emit (.waitsForLock (.read ts T v))) := by
  obtain ⟨t, ht⟩ := Dict.exists_lookup hT
  rw [handleReadRequest, getTransaction_eq_ok.mpr ht, ok_bind]
  cases hv : v.isOdd with
  | false => rw [if_neg Bool.false_ne_true, hst]; rfl
  | true => rw [if_pos rfl, if_pos (hr hv), hst]; rfl

/-- A read or write that is refused a lock is made to wait for the owners. -/
lemma exec_of_needToWait {r : Request} (ha : r.access? = some (T, v))
    (hst : (σ.tryAcquireWriteLock T v).status = .needToWait)
    (hro : ∀ ts, r = .read ts T v → ∃ t, σ.transactions.lookup T = some t ∧ t.isReadOnly = false)
    (hr : ∀ ts, r = .read ts T v → v.isOdd = true → σ.isReadAvailable v.home v = true) :
    σ.exec o r =
      .ok (((σ.assignWaitForGraph o T
        (σ.tryAcquireWriteLock T v).ownerIdSet).addRequestToBlockedQueue
        r).emit (.waitsForLock r)) := by
  cases r with
  | write ts T' v' x =>
      cases ha
      rw [exec, execWrite, hst, ite_self]
      rfl
  | read ts T' v' =>
      cases ha
      obtain ⟨t, ht, hfalse⟩ := hro ts rfl
      rw [exec, execRead, getTransaction_eq_ok.mpr ht, ok_bind, hfalse, if_neg Bool.false_ne_true]
      exact handleReadRequest_of_needToWait (Dict.mem_of_lookup ht) (hr ts rfl) hst
  | _ => cases ha

/-- An odd variable that a transaction reads in vain for a lock is at a site that is readable. -/
lemma isReadAvailable_of_waitsForLock (hx : σ.exec o (.read ts T v) = .ok σ')
    (htr : σ'.trace = σ.trace ++ [.waitsForLock (.read ts T v)]) (hv : v.isOdd = true) :
    σ.isReadAvailable v.home v = true := by
  by_contra hno
  rw [Bool.not_eq_true] at hno
  have hsite : σ.waitForSite (.read ts T v) T v.id v.home = .ok σ' := by
    rw [exec, execRead, bind_eq_ok] at hx
    obtain ⟨t, ht, hx⟩ := hx
    rw [handleReadOnlyRequest, handleReadRequest, ht, ok_bind, ok_bind, if_pos hv, if_pos hv,
      if_neg (ne_true_of_eq_false hno), if_neg (ne_true_of_eq_false hno), ite_self] at hx
    exact hx
  have hout : Outcome o σ (.read ts T v) _ σ' := .waitsForSite hv hno hsite
  have heq := List.append_cancel_left (htr.symm.trans hout.trace)
  cases heq

/-- A request that is made to wait for a lock has been refused it. -/
lemma Outcome.refused {r : Request} {es : List Event} (h : Outcome o σ r es σ')
    (ha : r.access? = some (T, v)) (hw : .waitsForLock r ∈ es) :
    (σ.tryAcquireWriteLock T v).status = .needToWait ∧
      ∀ ts, r = .read ts T v → ∃ t, σ.transactions.lookup T = some t ∧ t.isReadOnly = false := by
  cases h with
  | waitsForLock ha' _ _ _ hst hro =>
      obtain ⟨rfl, rfl⟩ := Prod.mk.inj (Option.some.inj (ha.symm.trans ha'))
      exact ⟨hst, hro⟩
  | sharesEven =>
      refine absurd hw ?_
      simp only [firstRead]
      split <;> simp
  | _ => simp_all [Request.access?]

/-- **A transaction that begins to wait for itself** has been refused a lock in its own name. -/
theorem Outcome.refused_of_selfEdge {r : Request} {es : List Event} (hout : Outcome o σ r es σ')
    (hx : σ.exec o r = .ok σ') (hX : X ∈ σ'.waitsFor X) (hno : X ∉ σ.waitsFor X) :
    ∃ v, r.access? = some (X, v) ∧ (σ.tryAcquireWriteLock X v).status = .needToWait ∧
      X ∈ (σ.tryAcquireWriteLock X v).ownerIdSet := by
  -- only a request that waits for a lock adds edges
  have hes : es = [.waitsForLock r] ∧ ∃ v, r.access? = some (X, v) := by
    by_contra hne
    refine hno (hout.index_induction (P := fun σ₁ => ∀ Y ∈ σ₁.waitsFor X, Y ∈ σ.waitsFor X)
      (fun _ => id) (fun hs ih Y hY => ih Y (hs.waitsFor X ▸ hY))
      (fun _ hl ih Y hY => ih Y (hl.subset_waitsFor hY).1) (fun _ _ _ _ _ => id)
      (fun T v s ha _ _ _ hes Y hY => ?_) (fun _ _ _ _ _ _ _ _ => id)
      (fun _ _ _ _ _ _ _ _ _ _ => id) (fun _ ih => ih) (fun _ _ _ hrec Y hY => ?_) X hX)
    · refine (mem_assignWaitForGraph.mp hY).resolve_right ?_
      rintro ⟨rfl, -⟩
      exact hne ⟨hes, v, ha⟩
    · rwa [waitsFor, hrec.waitForGraph] at hY
  obtain ⟨rfl, v, ha⟩ := hes
  obtain ⟨hst, hro⟩ := hout.refused ha (List.mem_singleton_self _)
  rw [exec_of_needToWait ha hst hro fun ts hr hv => ?_] at hx
  · cases hx
    have hmem : X ∈
        (σ.assignWaitForGraph o X (σ.tryAcquireWriteLock X v).ownerIdSet).waitsFor X := hX
    exact ⟨v, ha, hst, ((mem_assignWaitForGraph.mp hmem).resolve_left hno).2⟩
  · subst hr
    exact isReadAvailable_of_waitsForLock hx hout.trace hv

/-- No transaction waits for itself. -/
def Unlooped (σ : State) : Prop := ∀ T, T ∉ σ.waitsFor T

/-- The request asks for no awaited upgrade. -/
def AsksPlainly (r : Request) (σ : State) : Prop :=
  ∀ T v, r.access? = some (T, v) → ¬σ.AwaitedUpgrade T v

/-- An execution adds no edge from a transaction to itself, unless it asks for an awaited
upgrade. -/
lemma Unlooped.exec {r : Request} {es : List Event} (h : Unlooped σ) (hg : σ.Good)
    (hr : AsksPlainly r σ) (hx : σ.exec o r = .ok σ') (hout : Outcome o σ r es σ') :
    Unlooped σ' := by
  intro T hT
  obtain ⟨v, ha, hst, hself⟩ := hout.refused_of_selfEdge hx hT (h T)
  have hother := hg.refusedForOthers_iff.mpr (hr T v ha)
  exact ((hother hst).2 T hself).1 rfl

/-! ### Reads -/

/-- Another live transaction owns a copy of `v` exclusively, at a site that is up. -/
def OtherWrites (σ : State) (T : TranId) (v : VarId) : Prop :=
  ∃ T' s, T' ≠ T ∧ T' ∈ σ.transactions ∧ s ∈ copySites v ∧ σ.isWriteAvailable s = true ∧
    (σ.getVariable s v).exclusiveLockOwner = some T'

/-- Another live transaction shares a copy of `v`, at a site that is up. -/
def OtherReads (σ : State) (T : TranId) (v : VarId) : Prop :=
  ∃ T' s, T' ≠ T ∧ T' ∈ σ.transactions ∧ s ∈ copySites v ∧ σ.isWriteAvailable s = true ∧
    T' ∈ (σ.getVariable s v).sharedLockOwners

/-- The read of `v` is made to wait for a lock. -/
def ReadWaits (o : IterOrder) (ts : Timestamp) (T : TranId) (v : VarId) (σ : State) : Prop :=
  ∃ σ', σ.handleReadRequest o ts T v = .ok σ' ∧
    σ'.trace = σ.trace ++ [.waitsForLock (.read ts T v)]

/-- A transaction without a lock is sent to wait for every lock of another one. -/
lemma Good.sentToWait_iff_other (hg : σ.Good) (hno : ∀ s, ¬σ.Owns T s v) :
    σ.SentToWait T v ↔ σ.OtherWrites T v ∨ σ.OtherReads T v := by
  have hblocks : ∀ s, σ.Blocks T v s ↔ ∃ X, X ≠ T ∧ σ.Owns X s v := by
    intro s
    have hself : (σ.getVariable s v).hasSharedLock T = false :=
      decide_eq_false fun h => hno s (Or.inr h)
    rw [Blocks, hself, hasSharedLockExcludeSelf_iff, hasExclusiveLockExcludeSelf_iff]
    constructor
    · rintro (⟨⟨X, hX⟩, hT⟩ | ⟨X, hX, hne⟩ | ⟨hsh, -⟩)
      · exact ⟨X, fun heq => hT (heq ▸ hX), Or.inr hX⟩
      · exact ⟨X, hne, Or.inl hX⟩
      · cases hsh
    · rintro ⟨X, hne, hX | hX⟩
      · exact Or.inr (Or.inl ⟨X, hX, hne⟩)
      · exact Or.inl ⟨⟨X, hX⟩, fun h => hno s (Or.inr h)⟩
  have hsent : ∀ l, σ.SentBy T v l ↔ ∃ s ∈ l, σ.isWriteAvailable s = true ∧ σ.Blocks T v s := by
    intro l
    induction l with
    | nil => simp [SentBy]
    | cons s l ih =>
        have hx : (σ.getVariable s v).hasExclusiveLock T = false := by
          rw [← Bool.not_eq_true, Variable.hasExclusiveLock, beq_iff_eq]
          exact fun h => hno s (Or.inl h)
        rw [SentBy, ih, List.exists_mem_cons_iff]
        simp only [hx, implies_true, true_and]
  rw [SentToWait, hsent]
  constructor
  · rintro ⟨s, hs, hup, hb⟩
    obtain ⟨X, hne, hX⟩ := (hblocks s).mp hb
    have hlive := hg.live_of_owns hX
    rcases hX with hX | hX
    · exact Or.inl ⟨X, s, hne, hlive, hs, hup, hX⟩
    · exact Or.inr ⟨X, s, hne, hlive, hs, hup, hX⟩
  · rintro (⟨X, s, hne, -, hs, hup, hX⟩ | ⟨X, s, hne, -, hs, hup, hX⟩)
    · exact ⟨s, hs, hup, (hblocks s).mpr ⟨X, hne, Or.inl hX⟩⟩
    · exact ⟨s, hs, hup, (hblocks s).mpr ⟨X, hne, Or.inr hX⟩⟩

/-- The loop over the copies for a shared lock stops where another transaction owns one
exclusively. -/
lemma tryAcquireReadLoop_waits_iff (hno : ∀ s, ¬σ.Owns T s v) (l : List SiteId) (ls : LockStatus) :
    (σ.tryAcquireReadLoop T v l ls).status = .needToWait ↔
      ∃ s ∈ l, σ.isWriteAvailable s = true ∧
        (σ.getVariable s v).hasExclusiveLockExcludeSelf T = true := by
  induction l generalizing ls with
  | nil => simp [tryAcquireReadLoop]
  | cons s l ih =>
      have hx : (σ.getVariable s v).hasExclusiveLock T = false := by
        rw [← Bool.not_eq_true, Variable.hasExclusiveLock, beq_iff_eq]
        exact fun h => hno s (Or.inl h)
      have hsh : (σ.getVariable s v).hasSharedLock T = false :=
        decide_eq_false fun h => hno s (Or.inr h)
      rw [tryAcquireReadLoop, List.exists_mem_cons_iff]
      by_cases hup : σ.isWriteAvailable s = true
      · rw [if_neg (by simp [hup])]
        dsimp only
        split_ifs with h1 h2
        · exact iff_of_true rfl (Or.inl ⟨hup, h1⟩)
        · simp [hx, hsh] at h2
        · rw [ih, or_iff_right fun h => h1 h.2]
      · rw [if_pos (by simp [hup]), ih, or_iff_right fun h => hup h.1]

/-- **A shared lock** is refused exactly when another transaction owns a copy exclusively. -/
theorem Good.readLock_waits_iff (hg : σ.Good) (hno : ∀ s, ¬σ.Owns T s v)
    (hr : ∃ s ∈ copySites v, σ.isReadAvailable s v = true) :
    (σ.tryAcquireReadLock T v).status = .needToWait ↔ σ.OtherWrites T v := by
  have hother : σ.OtherWrites T v ↔ ∃ s ∈ copySites v, σ.isWriteAvailable s = true ∧
      (σ.getVariable s v).hasExclusiveLockExcludeSelf T = true := by
    simp only [hasExclusiveLockExcludeSelf_iff]
    constructor
    · rintro ⟨X, s, hne, -, hs, hup, hX⟩
      exact ⟨s, hs, hup, X, hX, hne⟩
    · rintro ⟨s, hs, hup, X, hX, hne⟩
      exact ⟨X, s, hne, hg.live_of_owns (Or.inl hX), hs, hup, hX⟩
  rw [hother, tryAcquireReadLock]
  cases hv : v.isOdd with
  | false =>
      rw [if_neg Bool.false_ne_true, copySites, hv, if_neg Bool.false_ne_true]
      exact tryAcquireReadLoop_waits_iff hno SiteId.all {}
  | true =>
      have hsites : copySites v = [v.home] := if_pos hv
      rw [hsites] at hr ⊢
      simp only [List.mem_singleton, exists_eq_left, if_true] at hr ⊢
      rw [if_neg (by simp [hr])]
      have hup := hg.isWriteAvailable_of_readable hr
      split_ifs with h1 h2
      · exact iff_of_true rfl ⟨hup, h1⟩
      · exact iff_of_false (by simp) fun h => h1 h.2
      · exact iff_of_false (by simp) fun h => h1 h.2

/-- A read that may take place waits for a lock exactly when it is refused it. -/
lemma readWaits_iff (ht : σ.transactions.lookup T = some t) (hro : t.isReadOnly = false)
    (hr : ∃ s ∈ copySites v, σ.isReadAvailable s v = true) :
    σ.ReadWaits o ts T v ↔ (σ.tryAcquireWriteLock T v).status = .needToWait := by
  constructor
  · rintro ⟨σ', hx, htr⟩
    obtain ⟨es, hout⟩ := handleReadRequest_outcome ht hro hx
    obtain rfl := List.append_cancel_left (htr.symm.trans hout.trace)
    exact (hout.refused rfl (List.mem_singleton_self _)).1
  · intro hst
    refine ⟨_, handleReadRequest_of_needToWait (Dict.mem_of_lookup ht) (fun hv => ?_) hst, rfl⟩
    rw [copySites, if_pos hv] at hr
    obtain ⟨s, hs, hup⟩ := hr
    rwa [List.mem_singleton.mp hs] at hup

/-- **A read waits like a write**: for every lock of another transaction. -/
theorem Good.readWaits_iff_other (hg : σ.Good) (ht : σ.transactions.lookup T = some t)
    (hro : t.isReadOnly = false) (hno : ∀ s, ¬σ.Owns T s v)
    (hr : ∃ s ∈ copySites v, σ.isReadAvailable s v = true) :
    σ.ReadWaits o ts T v ↔ σ.OtherWrites T v ∨ σ.OtherReads T v := by
  rw [State.readWaits_iff ht hro hr, ← hg.sentToWait_iff]
  exact hg.sentToWait_iff_other hno

end State

/-- **No transaction waits for itself** while no awaited upgrades are asked for. -/
theorem unlooped_invariant : ServingInvariant State.AsksPlainly fun _ => State.Unlooped where
  initial _ hT := by simp [State.initial, State.waitsFor] at hT
  graph h hw T hT := h T (hw T ▸ hT)
  request h := h
  abort _ h ha T hT := h T ((State.left_abortTransaction ha).subset_waitsFor hT).1
  dequeue h := h
  enqueue _ _ _ h _ _ _ := h
  exec _ _ hR h hC hx hout := h.exec hR.good hC hx hout
  mono _ h := h

section Runs

variable {l : List Feed} {σ : State} {T : TranId} {v : VarId}

/-- **A refused lock names other transactions**, which are live and hold locks on the variable,
exactly when it is not an upgrade of a transaction that is waited for. So where no request that is
executed asks for such an upgrade, no transaction ever waits for itself, and one that alone holds
locks on a variable is not made to wait for it. -/
theorem refused_lock_owners (ha : Admissible l) :
    (∀ σ T v, Meets l σ → (σ.RefusedForOthers T v ↔ ¬σ.AwaitedUpgrade T v)) ∧
    ((∀ r τ, CalledDuring l r τ → State.AsksPlainly r τ) →
      (∀ σ T, Meets l σ → T ∉ σ.waitsFor T) ∧
      ∀ r τ T v, CalledDuring l r τ → r.access? = some (T, v) →
        (∀ X, ∀ s ∈ State.copySites v, τ.isWriteAvailable s = true → τ.Owns X s v → X = T) →
        (τ.tryAcquireWriteLock T v).status ≠ .needToWait) := by
  refine ⟨fun σ T v hm => (hm.good ha).refusedForOthers_iff, fun hC => ⟨fun σ T hm => ?_,
    fun r τ T v hc hacc halone => ?_⟩⟩
  · rcases hm with hr | ⟨r, hc⟩
    · exact unlooped_invariant.reaches ha hC hr T
    · obtain ⟨l', -, h⟩ := unlooped_invariant.called ha hC hc
      exact h T
  · have hother := (good_called ha hc).refusedForOthers_iff.mpr (hC r τ hc T v hacc)
    exact hother.not_alone halone

/-- The first transaction shares a variable, and the second one waits for it on another one. -/
def awaitedRun : List Feed :=
  inOrder Schedule.stored [.begin 1, .begin 2, .read 1 2, .write 1 4 1, .write 2 4 2]

/-- The locks of the first transaction are released, and the second one is served. -/
def servedRun : List Feed :=
  inOrder Schedule.stored [.begin 1, .begin 2, .read 1 2, .write 1 4 1, .write 2 4 2, .finish 1,
    .finish 2]

theorem refused_lock_owners_awaitedRun :
    (∃ σ, Reaches awaitedRun σ ∧ (σ.tryAcquireWriteLock 2 x4).status = .needToWait ∧
      σ.RefusedForOthers 2 x4) ∧
    ∀ σ T, Meets servedRun σ → T ∉ σ.waitsFor T := by
  constructor
  · obtain ⟨σ, hr, hf⟩ := exists_ok_of_eval (x := run awaitedRun)
      (f := fun σ => ((σ.tryAcquireWriteLock 2 x4).status, σ.isWaitingForOthers 2))
      (a := (.needToWait, false)) (by decide +kernel)
    rw [Prod.mk.injEq] at hf
    have h := ((refused_lock_owners (by decide +kernel)).1 σ 2 x4 (Or.inl (.run hr))).mpr
    refine ⟨σ, .run hr, hf.1, h fun ha => ?_⟩
    rw [ha.1] at hf
    cases hf.2
  · -- whoever asks for a lock is waited for by nobody
    obtain ⟨-, hdirect, htaken⟩ := forall_of_feedCalls (l := servedRun) (D := fun _ _ => True)
      (A := fun r τ => r.isReadWrite = true → τ.isWaitingForOthers r.transactionId = false)
      (C := fun r τ => r.isReadWrite = true → τ.isWaitingForOthers r.transactionId = false)
      (by decide +kernel) (by decide +kernel)
    refine ((refused_lock_owners (by decide +kernel)).2 fun r τ hc T v hacc haw => ?_).1
    have hT := Request.transactionId_of_access hacc
    have hrw : r.isReadWrite = true := by
      cases r with
      | read | write => rfl
      | _ => cases hacc
    have hno := hc.cases.elim (hdirect r τ) (htaken r τ) hrw
    rw [hT, haw.1] at hno
    cases hno

/-- **A false deadlock.** The upgrade of the first transaction, which alone holds locks on the
variable, is refused in its own name, because the second one waits for it on another variable; so it
waits for itself, and both transactions are aborted. -/
theorem upgrade_waits_for_itself : Admissible (awaitedRun ++ [⟨.write 1 2 5, 5, Schedule.stored⟩]) ∧
    ∃ σ σ' ρ, Reaches awaitedRun σ ∧ 1 ∈ σ.transactions ∧
      (σ.tryAcquireWriteLock 1 x2).status = .needToWait ∧ ¬σ.RefusedForOthers 1 x2 ∧
      (∀ s X, σ.Owns X s x2 → X = 1) ∧
      run (awaitedRun ++ [⟨.write 1 2 5, 5, Schedule.stored⟩]) = .ok σ' ∧
      σ'.waitsFor 1 = [1] ∧ σ'.waitsFor 2 = [1] ∧
      State.executeInstructions Schedule.stored σ' = .ok ρ ∧ ρ.transactions.keys = [] := by
  obtain ⟨σ, hr, hf⟩ := exists_ok_of_eval (x := run awaitedRun)
    (f := fun σ => (decide (1 ∈ σ.transactions), (σ.tryAcquireWriteLock 1 x2).status,
      (σ.tryAcquireWriteLock 1 x2).ownerIdSet, SiteId.all.all fun s =>
        decide ((σ.getVariable s x2).exclusiveLockOwner = none ∧
          (σ.getVariable s x2).sharedLockOwners = [1]))) (a := (true, .needToWait, [1], true))
    (by decide +kernel)
  simp only [Prod.mk.injEq, decide_eq_true_iff, List.all_eq_true] at hf
  obtain ⟨hlive, hst, hown, hall⟩ := hf
  obtain ⟨p, hp, hf⟩ := exists_ok_of_eval
    (x := do
      let σ' ← run (awaitedRun ++ [⟨.write 1 2 5, 5, Schedule.stored⟩])
      return (σ', ← State.executeInstructions Schedule.stored σ'))
    (f := fun p : State × State => (p.1.waitsFor 1, p.1.waitsFor 2, p.2.transactions.keys))
    (a := ([1], [1], [])) (by decide +kernel)
  obtain ⟨σ', hσ', hp⟩ := bind_eq_ok.mp hp
  obtain ⟨ρ, hρ, hp⟩ := bind_eq_ok.mp hp
  cases hp
  simp only [Prod.mk.injEq] at hf
  refine ⟨by decide +kernel, σ, σ', ρ, .run hr, hlive, hst, fun h => ?_, fun s X hX => ?_, hσ',
    hf.1, hf.2.1, hρ, hf.2.2⟩
  · exact ((h hst).2 1 (hown ▸ List.mem_singleton_self 1)).1 rfl
  · obtain ⟨hx, hsh⟩ := hall s (SiteId.mem_all s)
    rcases hX with hX | hX
    · rw [hx] at hX
      cases hX
    · exact List.mem_singleton.mp (hsh ▸ hX)

/-- A read-write transaction without a lock on a variable with a readable copy asks to read it. -/
structure AsksToRead (σ : State) (T : TranId) (v : VarId) : Prop where
  isReadWrite : ∃ t, σ.transactions.lookup T = some t ∧ t.isReadOnly = false
  no_lock : ∀ s, ¬σ.Owns T s v
  readable : ∃ s ∈ State.copySites v, σ.isReadAvailable s v = true

/-- **Readers wait for readers**: a read waits for a lock exactly when another transaction writes
the variable, as the shared lock that is not used would tell, where another transaction writes it or
no other one reads it, and nowhere else. -/
theorem read_waits_iff (ha : Admissible l) (hm : Meets l σ) (hask : AsksToRead σ T v)
    (o : IterOrder)
    (ts : Timestamp) :
    ((σ.ReadWaits o ts T v ↔ σ.OtherWrites T v) ∧
      (σ.OtherWrites T v ↔ (σ.tryAcquireReadLock T v).status = .needToWait)) ↔
    (σ.OtherWrites T v ∨ ¬σ.OtherReads T v) := by
  have hg := hm.good ha
  obtain ⟨t, ht, hro⟩ := hask.isReadWrite
  rw [hg.readWaits_iff_other ht hro hask.no_lock hask.readable,
    hg.readLock_waits_iff hask.no_lock hask.readable]
  tauto

/-- A transaction writes a variable that another one has not asked for yet. -/
def writerRun : List Feed := inOrder Schedule.stored [.begin 1, .begin 2, .write 1 2 5]

theorem read_waits_iff_writerRun : ∃ σ, Reaches writerRun σ ∧ σ.OtherWrites 2 x2 ∧
    σ.ReadWaits IterOrder.stored 3 2 x2 := by
  obtain ⟨σ, hr, hf⟩ := exists_ok_of_eval (x := run writerRun)
    (f := fun σ => ((σ.transactions.lookup 2).map Transaction.isReadOnly, SiteId.all.all fun s =>
      decide ((σ.getVariable s x2).exclusiveLockOwner = some 1 ∧
        (σ.getVariable s x2).sharedLockOwners = [] ∧ σ.isReadAvailable s x2 = true ∧
        σ.isWriteAvailable s = true ∧ 1 ∈ σ.transactions)))
    (a := (some false, true)) (by decide +kernel)
  simp only [Prod.mk.injEq, decide_eq_true_iff, List.all_eq_true] at hf
  obtain ⟨hro, hall⟩ := hf
  have h1 := hall s1 (SiteId.mem_all s1)
  have hask : AsksToRead σ 2 x2 := by
    refine ⟨Option.map_eq_some_iff.mp hro, fun s ho => ?_, s1, by decide, h1.2.2.1⟩
    obtain ⟨hx, hsh, -⟩ := hall s (SiteId.mem_all s)
    rcases ho with ho | ho
    · rw [hx] at ho
      simp at ho
    · rw [hsh] at ho
      cases ho
  have hw : σ.OtherWrites 2 x2 := ⟨1, s1, by decide, h1.2.2.2.2, by decide, h1.2.2.2.1, h1.1⟩
  have h := (read_waits_iff (by decide +kernel) (Or.inl (.run hr)) hask IterOrder.stored 3).mpr
    (Or.inl hw)
  exact ⟨σ, .run hr, hw, h.1.mpr hw⟩

/-- A transaction reads a variable that another one has not asked for yet. -/
def sharedRun : List Feed := inOrder Schedule.stored [.begin 1, .begin 2, .read 1 2]

/-- **A reader blocks a reader**: the read waits for a lock, although nobody writes the variable and
a shared lock is available. -/
theorem reader_blocks_reader : Admissible sharedRun ∧ ∃ σ, Reaches sharedRun σ ∧
    AsksToRead σ 2 x2 ∧ σ.ReadWaits IterOrder.stored 3 2 x2 ∧ ¬σ.OtherWrites 2 x2 ∧
      (σ.tryAcquireReadLock 2 x2).status = .availableToAssign := by
  obtain ⟨σ, hr, hf⟩ := exists_ok_of_eval (x := run sharedRun)
    (f := fun σ => ((σ.transactions.lookup 2).map Transaction.isReadOnly,
      (σ.tryAcquireReadLock 2 x2).status, SiteId.all.all fun s =>
        decide ((σ.getVariable s x2).exclusiveLockOwner = none ∧
          (σ.getVariable s x2).sharedLockOwners = [1] ∧ σ.isReadAvailable s x2 = true),
      (σ.handleReadRequest IterOrder.stored 3 2 x2).toOption.map fun σ' : State =>
        σ'.trace.drop σ.trace.length))
    (a := (some false, .availableToAssign, true, some [.waitsForLock (.read 3 2 x2)]))
    (by decide +kernel)
  simp only [Prod.mk.injEq, decide_eq_true_iff, List.all_eq_true] at hf
  obtain ⟨hro, hst, hall, hx⟩ := hf
  obtain ⟨σ', hx, hdrop⟩ := exists_ok_of_eval hx
  obtain ⟨t, ht, hrw⟩ := Option.map_eq_some_iff.mp hro
  obtain ⟨es, hout⟩ := State.handleReadRequest_outcome ht hrw hx
  rw [hout.trace, List.drop_left] at hdrop
  subst hdrop
  refine ⟨by decide +kernel, σ, .run hr, ⟨⟨t, ht, hrw⟩, fun s ho => ?_, s1, by decide, ?_⟩,
    ⟨σ', hx, hout.trace⟩, ?_, hst⟩
  · obtain ⟨hx, hsh, -⟩ := hall s (SiteId.mem_all s)
    rcases ho with ho | ho
    · rw [hx] at ho
      cases ho
    · rw [hsh] at ho
      simp at ho
  · exact (hall s1 (SiteId.mem_all s1)).2.2
  · rintro ⟨X, s, -, -, -, -, hX⟩
    rw [(hall s (SiteId.mem_all s)).1] at hX
    cases hX

end Runs

end RepCRec
