import RepCRec.Engine.Outcome

/-!
The status that the lock manager answers, in terms of the locks on the copies
(`tryAcquireWriteLock_status`): a transaction is sent to wait (`SentToWait`), or else it holds a
lock on a copy already (`HoldsLock`), or the variable is free for it. A copy is not both shared
and exclusively owned, which the loop over the copies relies on.
-/

namespace RepCRec

namespace State

variable {σ : State} {T : TranId} {v : VarId}

/-- The copy at `s` stands in the way of `T`: another transaction holds a lock on it, or `T` shares
it while another transaction waits for `T`. -/
def Blocks (σ : State) (T : TranId) (v : VarId) (s : SiteId) : Prop :=
  (σ.getVariable s v).hasSharedLockExcludeSelf T = true ∨
    (σ.getVariable s v).hasExclusiveLockExcludeSelf T = true ∨
    ((σ.getVariable s v).hasSharedLock T = true ∧ σ.isWaitingForOthers T = true)

/-- One of the copies at the sites `l` that are up stands in the way of `T`, and `T` owns none of
the copies before it exclusively. -/
def SentBy (σ : State) (T : TranId) (v : VarId) : List SiteId → Prop
  | [] => False
  | s :: l => (σ.isWriteAvailable s = true ∧ σ.Blocks T v s) ∨
      ((σ.isWriteAvailable s = true → (σ.getVariable s v).hasExclusiveLock T = false) ∧
        SentBy σ T v l)

/-- `T` is sent to wait when it asks for a lock on `v`. -/
def SentToWait (σ : State) (T : TranId) (v : VarId) : Prop := σ.SentBy T v (copySites v)

/-- `T` holds a lock on the copy of `v` at one of the sites `l` that are up. -/
def HoldsAt (σ : State) (T : TranId) (v : VarId) (l : List SiteId) : Prop :=
  ∃ s ∈ l, σ.isWriteAvailable s = true ∧ ((σ.getVariable s v).hasSharedLock T = true ∨
    (σ.getVariable s v).hasExclusiveLock T = true)

/-- `T` holds a lock on a copy of `v` at a site that is up. -/
def HoldsLock (σ : State) (T : TranId) (v : VarId) : Prop := σ.HoldsAt T v (copySites v)

/-- The copies that `T` shares have no exclusive owner. -/
def Apart (σ : State) (T : TranId) (v : VarId) : Prop :=
  ∀ s, (σ.getVariable s v).hasSharedLock T = true → (σ.getVariable s v).exclusiveLockOwner = none

lemma holdsAt_cons {s : SiteId} {l : List SiteId} : σ.HoldsAt T v (s :: l) ↔
    (σ.isWriteAvailable s = true ∧ ((σ.getVariable s v).hasSharedLock T = true ∨
      (σ.getVariable s v).hasExclusiveLock T = true)) ∨ σ.HoldsAt T v l := by
  simp only [HoldsAt, List.exists_mem_cons_iff]

/-- The statuses of the loop over the copies of an even variable. -/
lemma tryAcquireWriteLoop_status (ha : σ.Apart T v) (l : List SiteId) {ls : LockStatus}
    (hls : LockGranted ls) :
    (σ.SentBy T v l ∧ (σ.tryAcquireWriteLoop T v l ls).status = .needToWait) ∨
    (¬σ.SentBy T v l ∧ (σ.HoldsAt T v l ∨ ls.status = .hasReadLock) ∧
      ((σ.tryAcquireWriteLoop T v l ls).status = .hasReadLock ∨
        (σ.tryAcquireWriteLoop T v l ls).status = .hasWriteLock)) ∨
    (¬σ.SentBy T v l ∧ ¬σ.HoldsAt T v l ∧ ls.status = .availableToAssign ∧
      (σ.tryAcquireWriteLoop T v l ls).status = .availableToAssign) := by
  induction l generalizing ls with
  | nil =>
      have hno : ¬σ.HoldsAt T v [] := by simp [HoldsAt]
      rcases hls with h | h
      · exact Or.inr (Or.inl ⟨id, Or.inr h, Or.inl h⟩)
      · exact Or.inr (Or.inr ⟨id, hno, h, h⟩)
  | cons s l ih =>
      rw [tryAcquireWriteLoop, holdsAt_cons, SentBy]
      cases hup : σ.isWriteAvailable s with
      | false => simpa using ih hls
      | true =>
          rw [if_neg (by simp)]
          dsimp only
          have hap := ha s
          split_ifs with h1 h2 h3
          · have hrest := @ih { ls with status := .hasReadLock, siteIdSet := ls.siteIdSet.insert s }
              (Or.inl rfl)
            simp only [Bool.and_eq_true, Bool.not_eq_true'] at h1
            have hx : (σ.getVariable s v).hasExclusiveLock T = false := by
              simp [Variable.hasExclusiveLock, hap h1.1.1.1]
            simpa [Blocks, h1, hx] using hrest
          · have hb : σ.Blocks T v s := by
              simp only [Bool.or_eq_true] at h2
              rcases h2 with (h2 | h2) | h2
              · exact Or.inl h2
              · exact Or.inr (Or.inl h2)
              · simp [Blocks, h2] at h1 ⊢
                grind
            exact Or.inl ⟨Or.inl ⟨rfl, hb⟩, rfl⟩
          · simp only [Bool.or_eq_true, not_or, Bool.not_eq_true] at h2
            refine Or.inr (Or.inl ⟨?_, Or.inl (Or.inl ⟨rfl, Or.inr h3⟩), Or.inr rfl⟩)
            simp [Blocks, h2, h3]
          · have hrest := @ih { ls with siteIdSet := ls.siteIdSet.insert s } hls
            simp only [Bool.or_eq_true, not_or, Bool.not_eq_true] at h2 h3
            simpa [Blocks, h2, h3] using hrest

/-- **The status of a request for a lock.** -/
theorem tryAcquireWriteLock_status (ha : σ.Apart T v) :
    (v.isOdd = true ∧ σ.isWriteAvailable v.home = false ∧ ¬σ.SentToWait T v ∧
      (σ.tryAcquireWriteLock T v).status = .siteUnavailable) ∨
    ((v.isOdd = true → σ.isWriteAvailable v.home = true) ∧
      ((σ.SentToWait T v ∧ (σ.tryAcquireWriteLock T v).status = .needToWait) ∨
      (¬σ.SentToWait T v ∧ σ.HoldsLock T v ∧
        ((σ.tryAcquireWriteLock T v).status = .hasReadLock ∨
          (σ.tryAcquireWriteLock T v).status = .hasWriteLock)) ∨
      (¬σ.SentToWait T v ∧ ¬σ.HoldsLock T v ∧
        (σ.tryAcquireWriteLock T v).status = .availableToAssign))) := by
  rw [SentToWait, HoldsLock, tryAcquireWriteLock, copySites]
  cases hv : v.isOdd with
  | false =>
      refine Or.inr ⟨by simp, ?_⟩
      have hls : LockGranted { status := .availableToAssign } := Or.inr rfl
      have h := tryAcquireWriteLoop_status ha SiteId.all hls
      simpa using h
  | true =>
      rw [if_pos rfl, if_pos rfl]
      cases hup : σ.isWriteAvailable v.home with
      | false => exact Or.inl ⟨rfl, rfl, by simp [SentBy, hup], rfl⟩
      | true =>
          refine Or.inr ⟨fun _ => rfl, ?_⟩
          rw [if_neg (by simp)]
          dsimp only
          have hap := ha v.home
          simp only [SentBy, HoldsAt, List.exists_mem_cons_iff, List.not_mem_nil, hup]
          split_ifs with h1 h2 h3
          · simp only [Bool.and_eq_true, Bool.not_eq_true'] at h1
            have hx := hap h1.1.1.1
            refine Or.inr (Or.inl ⟨?_, ?_, Or.inl rfl⟩)
            · simp [Blocks, h1, Variable.hasExclusiveLockExcludeSelf, hx]
            · simp [h1]
          · refine Or.inl ⟨Or.inl ⟨trivial, ?_⟩, rfl⟩
            simp only [Bool.or_eq_true] at h2
            rcases h2 with (h2 | h2) | h2
            · exact Or.inr (Or.inl h2)
            · exact Or.inl h2
            · simp [Blocks, h2] at h1 ⊢
              grind
          · simp only [Bool.or_eq_true, not_or, Bool.not_eq_true] at h2
            refine Or.inr (Or.inl ⟨?_, ?_, Or.inr rfl⟩)
            · simp [Blocks, h2]
            · simp [h3]
          · simp only [Bool.or_eq_true, not_or, Bool.not_eq_true] at h2 h3
            refine Or.inr (Or.inr ⟨?_, ?_, rfl⟩)
            · simp [Blocks, h2]
            · simp [h2, h3]

/-! ### Who is waited for -/

/-- A transaction that the loop sends to wait waits for the owners of a copy that stands in its
way. -/
lemma tryAcquireWriteLoop_waits (l : List SiteId) {ls : LockStatus} (hls : LockGranted ls)
    (h : (σ.tryAcquireWriteLoop T v l ls).status = .needToWait) :
    ∃ s ∈ l, σ.isWriteAvailable s = true ∧ σ.Blocks T v s ∧
      (σ.tryAcquireWriteLoop T v l ls).ownerIdSet = waitOwners (σ.getVariable s v) T := by
  induction l generalizing ls with
  | nil =>
      rw [tryAcquireWriteLoop] at h
      rcases hls with hst | hst <;> simp [hst] at h
  | cons s l ih =>
      have hrest : ∀ {ls'}, LockGranted ls' →
          (σ.tryAcquireWriteLoop T v l ls').status = .needToWait →
          ∃ s' ∈ s :: l, σ.isWriteAvailable s' = true ∧ σ.Blocks T v s' ∧
            (σ.tryAcquireWriteLoop T v l ls').ownerIdSet = waitOwners (σ.getVariable s' v) T := by
        intro ls' hls' h'
        obtain ⟨s', hs', hw⟩ := ih hls' h'
        exact ⟨s', List.mem_cons_of_mem s hs', hw⟩
      rw [tryAcquireWriteLoop] at h ⊢
      by_cases hup : σ.isWriteAvailable s = true
      · rw [if_neg (by simp [hup])] at h ⊢
        dsimp only at h ⊢
        split_ifs at h ⊢ with h1 h2 h3
        · exact hrest (Or.inl rfl) h
        · refine ⟨s, List.mem_cons_self, hup, ?_, rfl⟩
          simp only [Bool.or_eq_true] at h2
          rcases h2 with (h2 | h2) | h2
          · exact Or.inl h2
          · exact Or.inr (Or.inl h2)
          · simp [Blocks, h2] at h1 ⊢
            grind
        · exact hrest hls h
      · rw [if_pos (by simp [hup])] at h ⊢
        exact hrest hls h

/-- **Who a refused lock names**: the owners of a copy that stands in the way. -/
theorem tryAcquireWriteLock_waits (h : (σ.tryAcquireWriteLock T v).status = .needToWait) :
    ∃ s ∈ copySites v, σ.isWriteAvailable s = true ∧ σ.Blocks T v s ∧
      (σ.tryAcquireWriteLock T v).ownerIdSet = waitOwners (σ.getVariable s v) T := by
  rw [tryAcquireWriteLock] at h ⊢
  rw [copySites]
  cases hv : v.isOdd with
  | false =>
      simp only [hv, Bool.false_eq_true, if_false] at h ⊢
      exact tryAcquireWriteLoop_waits SiteId.all (Or.inr rfl) h
  | true =>
      simp only [hv, if_true] at h ⊢
      by_cases hup : σ.isWriteAvailable v.home = true
      · rw [if_neg (by simp [hup])] at h ⊢
        split_ifs at h ⊢ with h1 h2 h3
        · refine ⟨v.home, List.mem_singleton_self _, hup, ?_, rfl⟩
          simp only [Bool.or_eq_true] at h2
          rcases h2 with (h2 | h2) | h2
          · exact Or.inr (Or.inl h2)
          · exact Or.inl h2
          · simp [Blocks, h2] at h1 ⊢
            grind
      · rw [if_pos (by simp [hup])] at h
        cases h

/-! ### Transactions that are waited for -/

/-- Somebody holds a lock on the copy of `v` at `s`, and `s` is up. -/
def LockedAt (σ : State) (v : VarId) (s : SiteId) : Prop :=
  σ.isWriteAvailable s = true ∧ ∃ X, (σ.getVariable s v).exclusiveLockOwner = some X ∨
    X ∈ (σ.getVariable s v).sharedLockOwners

/-- The first of the sites `l` where a copy of `v` is locked is `s`. -/
def FirstLocked (σ : State) (v : VarId) (l : List SiteId) (s : SiteId) : Prop :=
  ∃ l₁ l₂, l = l₁ ++ s :: l₂ ∧ σ.LockedAt v s ∧ ∀ s' ∈ l₁, ¬σ.LockedAt v s'

lemma FirstLocked.cons {s s' : SiteId} {l : List SiteId} (hs : ¬σ.LockedAt v s)
    (h : σ.FirstLocked v l s') : σ.FirstLocked v (s :: l) s' := by
  obtain ⟨l₁, l₂, rfl, hl, hno⟩ := h
  exact ⟨s :: l₁, l₂, rfl, hl, List.forall_mem_cons.mpr ⟨hs, hno⟩⟩

lemma FirstLocked.head {s : SiteId} {l : List SiteId} (hs : σ.LockedAt v s) :
    σ.FirstLocked v (s :: l) s := ⟨[], l, rfl, hs, by simp⟩

lemma FirstLocked.unique {s s' : SiteId} {l : List SiteId} (h : σ.FirstLocked v l s)
    (h' : σ.FirstLocked v l s') : s = s' := by
  obtain ⟨l₁, l₂, rfl, hl, hno⟩ := h
  obtain ⟨l₃, l₄, heq, hl', hno'⟩ := h'
  induction l₁ generalizing l₃ with
  | nil =>
      cases l₃ with
      | nil => exact (List.cons.inj heq).1
      | cons a l₃ =>
          obtain ⟨rfl, -⟩ := List.cons.inj heq
          exact absurd hl (hno' s List.mem_cons_self)
  | cons a l₁ ih =>
      cases l₃ with
      | nil =>
          obtain ⟨rfl, -⟩ := List.cons.inj heq
          exact absurd hl' (hno a List.mem_cons_self)
      | cons b l₃ =>
          exact ih (fun s hs => hno s (List.mem_cons_of_mem a hs)) l₃ (List.cons.inj heq).2
            fun s hs => hno' s (List.mem_cons_of_mem b hs)

/-- A lock on a copy is one of another transaction or of `T`. -/
lemma lockedAt_iff {s : SiteId} : σ.LockedAt v s ↔ σ.isWriteAvailable s = true ∧
    (Conflicts (σ.getVariable s v) T ∨ (σ.getVariable s v).hasExclusiveLock T = true) := by
  refine and_congr_right fun _ => ?_
  generalize σ.getVariable s v = x
  rw [Conflicts, Variable.hasSharedLockExcludeSelf, Variable.hasExclusiveLockExcludeSelf,
    Variable.hasSharedLock, Variable.hasExclusiveLock]
  constructor
  · rintro ⟨X, hX | hX⟩
    · by_cases hT : X = T
      · exact Or.inr (by simp [hX, hT])
      · exact Or.inl (Or.inr (Or.inl (by simp [hX, hT])))
    · by_cases hT : T ∈ x.sharedLockOwners
      · exact Or.inl (Or.inr (Or.inr (by simpa using hT)))
      · exact Or.inl (Or.inl (by simp [hT, List.ne_nil_of_mem hX]))
  · rintro ((hsh | hex | hT) | hT)
    · obtain ⟨X, hX⟩ := List.exists_mem_of_ne_nil x.sharedLockOwners fun hnil => by
        simp [hnil] at hsh
      exact ⟨X, Or.inr hX⟩
    · cases hx : x.exclusiveLockOwner with
      | none => simp [hx] at hex
      | some X => exact ⟨X, Or.inl rfl⟩
    · exact ⟨T, Or.inr (by simpa using hT)⟩
    · exact ⟨T, Or.inl (by simpa using hT)⟩

/-- The answer at the first locked copy. -/
def AnsweredAt (σ : State) (T : TranId) (v : VarId) (s : SiteId) (ls : LockStatus) : Prop :=
  (Conflicts (σ.getVariable s v) T ∧ ls.status = .needToWait ∧
      ls.ownerIdSet = waitOwners (σ.getVariable s v) T) ∨
    (¬Conflicts (σ.getVariable s v) T ∧ ls.status = .hasWriteLock)

/-- The loop over the copies stops at the first locked one when `T` is waited for. -/
lemma tryAcquireWriteLoop_awaited (hw : σ.isWaitingForOthers T = true) (l : List SiteId)
    {ls : LockStatus} (hls : LockGranted ls) :
    ((∀ s ∈ l, ¬σ.LockedAt v s) ∧ LockGranted (σ.tryAcquireWriteLoop T v l ls)) ∨
      ∃ s, σ.FirstLocked v l s ∧ σ.AnsweredAt T v s (σ.tryAcquireWriteLoop T v l ls) := by
  induction l generalizing ls with
  | nil => exact Or.inl ⟨by simp, hls⟩
  | cons s l ih =>
      have hrest : ∀ {ls'}, LockGranted ls' → ¬σ.LockedAt v s →
          ((∀ s' ∈ s :: l, ¬σ.LockedAt v s') ∧ LockGranted (σ.tryAcquireWriteLoop T v l ls')) ∨
          ∃ s', σ.FirstLocked v (s :: l) s' ∧
            σ.AnsweredAt T v s' (σ.tryAcquireWriteLoop T v l ls') := by
        intro ls' hls' hs
        refine (ih hls').imp (fun h => ⟨List.forall_mem_cons.mpr ⟨hs, h.1⟩, h.2⟩) ?_
        rintro ⟨s', hf, ha⟩
        exact ⟨s', hf.cons hs, ha⟩
      rw [tryAcquireWriteLoop]
      by_cases hup : σ.isWriteAvailable s = true
      · rw [if_neg (by simp [hup])]
        dsimp only
        split_ifs with h1 h2 h3
        · simp [hw] at h1
        · have hc : Conflicts (σ.getVariable s v) T := by simpa [Conflicts, or_assoc] using h2
          exact Or.inr ⟨s, .head (lockedAt_iff.mpr ⟨hup, Or.inl hc⟩), Or.inl ⟨hc, rfl, rfl⟩⟩
        · have hc : ¬Conflicts (σ.getVariable s v) T := by simpa [Conflicts, or_assoc] using h2
          exact Or.inr ⟨s, .head (lockedAt_iff.mpr ⟨hup, Or.inr h3⟩), Or.inr ⟨hc, rfl⟩⟩
        · have hc : ¬Conflicts (σ.getVariable s v) T := by simpa [Conflicts, or_assoc] using h2
          exact hrest hls fun hs => (lockedAt_iff.mp hs).2.elim hc h3
      · rw [if_pos (by simp [hup])]
        exact hrest hls fun hs => hup hs.1

/-- **The answer to a transaction that is waited for** depends on the first locked copy alone. -/
theorem tryAcquireWriteLock_awaited (hw : σ.isWaitingForOthers T = true) :
    ((∀ s ∈ copySites v, ¬σ.LockedAt v s) ∧ (σ.tryAcquireWriteLock T v).status ≠ .needToWait) ∨
      ∃ s, σ.FirstLocked v (copySites v) s ∧ σ.AnsweredAt T v s (σ.tryAcquireWriteLock T v) := by
  rw [tryAcquireWriteLock, copySites]
  cases hv : v.isOdd with
  | false =>
      simp only [Bool.false_eq_true, if_false]
      refine (tryAcquireWriteLoop_awaited hw SiteId.all (Or.inr rfl)).imp
        (And.imp_right fun hg => ?_) id
      rcases hg with hst | hst <;> simp [hst]
  | true =>
      simp only [if_true]
      by_cases hup : σ.isWriteAvailable v.home = true
      · rw [if_neg (by simp [hup])]
        split_ifs with h1 h2 h3
        · simp [hw] at h1
        · have hc : Conflicts (σ.getVariable v.home v) T := by
            simpa [Conflicts, or_assoc, or_left_comm] using h2
          exact Or.inr ⟨v.home, .head (lockedAt_iff.mpr ⟨hup, Or.inl hc⟩), Or.inl ⟨hc, rfl, rfl⟩⟩
        · have hc : ¬Conflicts (σ.getVariable v.home v) T := by
            simpa [Conflicts, or_assoc, or_left_comm] using h2
          exact Or.inr ⟨v.home, .head (lockedAt_iff.mpr ⟨hup, Or.inr h3⟩), Or.inr ⟨hc, rfl⟩⟩
        · have hc : ¬Conflicts (σ.getVariable v.home v) T := by
            simpa [Conflicts, or_assoc, or_left_comm] using h2
          refine Or.inl ⟨fun s hs => ?_, by simp⟩
          rw [List.mem_singleton.mp hs]
          exact fun hl => (lockedAt_iff.mp hl).2.elim hc h3
      · rw [if_pos (by simp [hup])]
        refine Or.inl ⟨fun s hs hl => hup ?_, by simp⟩
        rw [← List.mem_singleton.mp hs]
        exact hl.1

end State

end RepCRec
