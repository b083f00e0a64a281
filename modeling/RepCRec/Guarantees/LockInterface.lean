import RepCRec.Engine.LockSteps
import RepCRec.Engine.Progress
import RepCRec.Guarantees.Replication

/-!
Shared and exclusive locks at the interface of the lock manager, while all sites are up. They are
kept apart in every state of a sequence of steps exactly when no transaction upgrades a lock that it
shares with another one (`locks_apart_iff`). The lock manager grants such an upgrade: its test for
other shared owners fails as soon as the caller is one of the owners (`shared_upgrade_granted`).
-/

namespace RepCRec

open Container (IterOrder bind_eq_ok)

namespace State

variable {o : IterOrder} {σ σ' : State} {op : LockOp} {T T' : TranId} {v : VarId} {s : SiteId}
  {L : List SiteId}

/-- All sites are up, and no copy is locked. -/
structure AllFree (σ : State) : Prop where
  up : ∀ s, σ.isWriteAvailable s = true
  readable : ∀ s v, σ.isReadAvailable s v = true
  named : σ.Named
  excl : ∀ s v, (σ.getVariable s v).exclusiveLockOwner = none
  shared : ∀ s v, (σ.getVariable s v).sharedLockOwners = []

/-- No copy has an exclusive owner beside another shared owner, and no variable has two exclusive
owners. -/
structure LocksApart (σ : State) : Prop where
  shared : ∀ {T T' s v}, (σ.getVariable s v).exclusiveLockOwner = some T →
    T' ∈ (σ.getVariable s v).sharedLockOwners → T' = T
  excl : ∀ {T T' s s' v}, (σ.getVariable s v).exclusiveLockOwner = some T →
    (σ.getVariable s' v).exclusiveLockOwner = some T' → T = T'

/-- The step asks for the exclusive lock on a variable for one of several transactions that share
a copy of it, while nobody else waits for this transaction. -/
def SharedUpgrade (σ : State) : LockOp → Prop
  | .writeLock T v => σ.isWaitingForOthers T = false ∧ ∃ s T', T' ≠ T ∧
      T ∈ (σ.getVariable s v).sharedLockOwners ∧ T' ∈ (σ.getVariable s v).sharedLockOwners
  | _ => False

/-- What the steps keep as long as none of them is such an upgrade: all copies of a variable have
the same owners. -/
structure LocksUniform (σ : State) : Prop where
  up : ∀ s, σ.isWriteAvailable s = true
  readable : ∀ s v, σ.isReadAvailable s v = true
  named : σ.Named
  tabled : σ.Tabled
  onCopies : ∀ {T s v}, σ.Owns T s v → s ∈ copySites v
  live : ∀ {T s v}, σ.Owns T s v → T ∈ σ.transactions
  excl : ∀ {T s s' v}, (σ.getVariable s v).exclusiveLockOwner = some T → s' ∈ copySites v →
    (σ.getVariable s' v).exclusiveLockOwner = some T
  shared : ∀ {T s s' v}, T ∈ (σ.getVariable s v).sharedLockOwners → s' ∈ copySites v →
    T ∈ (σ.getVariable s' v).sharedLockOwners
  apart : ∀ {T T' s v}, (σ.getVariable s v).exclusiveLockOwner = some T →
    T' ∉ (σ.getVariable s v).sharedLockOwners

lemma AllFree.uniform (h : AllFree σ) : LocksUniform σ := by
  have hno : ∀ {T s v}, ¬σ.Owns T s v := fun {T s v} ho => by
    rw [Owns, h.excl, h.shared] at ho
    rcases ho with ho | ho <;> cases ho
  refine ⟨h.up, h.readable, h.named, ⟨fun ho => absurd ho hno, fun s v => ?_⟩,
    fun ho => absurd ho hno, fun ho => absurd ho hno, fun hx _ => absurd (Or.inl hx) hno,
    fun hs _ => absurd (Or.inr hs) hno, fun hx => absurd (Or.inl hx) hno⟩
  rw [h.shared]
  exact List.nodup_nil

namespace LocksUniform

lemma apartness (h : LocksUniform σ) : LocksApart σ where
  shared hx hs := absurd hs (h.apart hx)
  excl {T T' s s' v} hx hx' := by
    have heq := h.excl hx (h.onCopies (Or.inl hx'))
    exact Option.some.inj (heq.symm.trans hx')

lemma apartFrom (h : LocksUniform σ) (T : TranId) (v : VarId) : σ.Apart T v := fun s hs => by
  have hT : T ∈ (σ.getVariable s v).sharedLockOwners := of_decide_eq_true hs
  cases hx : (σ.getVariable s v).exclusiveLockOwner with
  | none => rfl
  | some T' => exact absurd hT (h.apart hx)

/-- All copies of `v` get the same owners, `T` and owners that they had. -/
lemma assigned {g : Variable → Variable} {E S : TranId → Prop} (h : LocksUniform σ)
    (ha : Assigned T v g L σ σ') (hL : ∀ s, s ∈ L ↔ s ∈ copySites v)
    (hE : ∀ s ∈ copySites v, ∀ T', (g (σ.getVariable s v)).exclusiveLockOwner = some T' ↔ E T')
    (hS : ∀ s ∈ copySites v, ∀ T', T' ∈ (g (σ.getVariable s v)).sharedLockOwners ↔ S T')
    (hn : ∀ s ∈ copySites v, (g (σ.getVariable s v)).sharedLockOwners.Nodup)
    (hES : ∀ {T₁ T₂}, E T₁ → ¬S T₂)
    (hold : ∀ {T'}, E T' ∨ S T' → T' = T ∨ ∃ s, σ.Owns T' s v) : LocksUniform σ' := by
  have hother : ∀ {s w}, w ≠ v → σ'.getVariable s w = σ.getVariable s w := fun {s w} hw => by
    rw [ha.variable_eq, if_neg fun hc => hw hc.2]
  have hoff : ∀ {s}, s ∉ copySites v → σ'.getVariable s v = σ.getVariable s v := fun {s} hs => by
    rw [ha.variable_eq, if_neg fun hc => hs ((hL s).mp hc.1)]
  have hon : ∀ {s}, s ∈ copySites v → σ'.getVariable s v = g (σ.getVariable s v) := fun {s} hs => by
    rw [ha.variable_eq, if_pos ⟨(hL s).mpr hs, rfl⟩]
  have hmem : ∀ {T' s}, σ'.Owns T' s v → s ∈ copySites v := fun {T' s} ho => by
    by_contra hs
    rw [Owns, hoff hs] at ho
    exact hs (h.onCopies ho)
  have hexcl : ∀ {T' s}, s ∈ copySites v →
      ((σ'.getVariable s v).exclusiveLockOwner = some T' ↔ E T') := fun {T' s} hs => by
    rw [hon hs, hE s hs]
  have hshared : ∀ {T' s}, s ∈ copySites v →
      (T' ∈ (σ'.getVariable s v).sharedLockOwners ↔ S T') := fun {T' s} hs => by
    rw [hon hs, hS s hs]
  have hnil : L ≠ [] := List.ne_nil_of_mem ((hL v.home).mpr (mem_copySites.mpr (home_mem_copies v)))
  -- an owner in the new state is an owner in the old one, or gets the lock on `v`
  have howner : ∀ {T' s w}, σ'.Owns T' s w → (∃ s, σ.Owns T' s w) ∨ (T' = T ∧ w = v) := by
    intro T' s w ho
    by_cases hw : w = v
    · subst hw
      have hs := hmem ho
      exact (hold (ho.imp (hexcl hs).mp (hshared hs).mp)).symm.imp id fun heq => ⟨heq, rfl⟩
    · rw [Owns, hother hw] at ho
      exact Or.inl ⟨s, ho⟩
  exact {
    up := fun s => (ha.up s).trans (h.up s)
    readable := fun s w => (ha.readable s w).trans (h.readable s w)
    named := fun {T' t'} ht' => h.named (ha.transactions ▸ ht')
    tabled := by
      refine ⟨fun {T' s w} ho => (ha.table T' w).mpr ?_, fun s w => ?_⟩
      · rcases howner ho with ⟨s', ho'⟩ | ⟨rfl, rfl⟩
        · exact Or.inl (h.tabled.owned ho')
        · exact Or.inr ⟨rfl, rfl, hnil⟩
      · by_cases hw : w = v
        · subst hw
          by_cases hs : s ∈ copySites w
          · rw [hon hs]
            exact hn s hs
          · rw [hoff hs]
            exact h.tabled.nodup s w
        · rw [hother hw]
          exact h.tabled.nodup s w
    onCopies := fun {T' s w} ho => by
      by_cases hw : w = v
      · subst hw
        exact hmem ho
      · rw [Owns, hother hw] at ho
        exact h.onCopies ho
    live := fun {T' s w} ho => by
      rw [ha.transactions]
      rcases howner ho with ⟨s, ho⟩ | ⟨rfl, -⟩
      · exact h.live ho
      · exact ha.live hnil
    excl := fun {T' s s' w} hx hs' => by
      by_cases hw : w = v
      · subst hw
        exact (hexcl hs').mpr ((hexcl (hmem (Or.inl hx))).mp hx)
      · rw [hother hw] at hx ⊢
        exact h.excl hx hs'
    shared := fun {T' s s' w} hx hs' => by
      by_cases hw : w = v
      · subst hw
        exact (hshared hs').mpr ((hshared (hmem (Or.inr hx))).mp hx)
      · rw [hother hw] at hx ⊢
        exact h.shared hx hs'
    apart := fun {T₁ T₂ s w} hx hs => by
      by_cases hw : w = v
      · subst hw
        have hc := hmem (Or.inl hx)
        exact hES ((hexcl hc).mp hx) ((hshared hc).mp hs)
      · rw [hother hw] at hx hs
        exact h.apart hx hs }

lemma readLock (h : LocksUniform σ) (hx : σ.lockStep o (.readLock T v) = .ok σ') :
    LocksUniform σ' := by
  rw [lockStep] at hx
  split_ifs at hx with hst
  · obtain ⟨hn, hmem, hfree⟩ := tryAcquireReadLock_available h.up hst
    have ha := assigned_assignShareLock hn h.named (fun s _ => h.readable s v) hx
    have hhome : v.home ∈ copySites v := mem_copySites.mpr (home_mem_copies v)
    refine h.assigned (E := fun _ => False)
      (S := fun T' => T' ∈ (σ.getVariable v.home v).sharedLockOwners ∨ T' = T) ha hmem
      (fun s hs T' => ?_) (fun s hs T' => ?_) (fun s hs => ?_) (fun hE => hE.elim) ?_
    · rw [Variable.exclusiveLockOwner_addSharedTransaction, hfree s hs]
      simp
    · rw [Variable.mem_addSharedTransaction]
      exact or_congr_left ⟨fun hT' => h.shared hT' hhome, fun hT' => h.shared hT' hs⟩
    · exact Variable.nodup_addSharedTransaction (h.tabled.nodup s v)
    · rintro T' (hE | hT' | rfl)
      · exact hE.elim
      · exact Or.inr ⟨v.home, Or.inr hT'⟩
      · exact Or.inl rfl
  · cases hx
    exact h

/-- A transaction that shares the copies is sent to wait exactly when somebody waits for it. -/
lemma sentToWait_iff (h : LocksUniform σ) (hT : T ∈ (σ.getVariable s v).sharedLockOwners) :
    σ.SentToWait T v ↔ σ.isWaitingForOthers T = true := by
  have hshared : ∀ s' ∈ copySites v, (σ.getVariable s' v).hasSharedLock T = true := fun s' hs' =>
    decide_eq_true (h.shared hT hs')
  have hblocks : ∀ s' ∈ copySites v, σ.Blocks T v s' ↔ σ.isWaitingForOthers T = true := by
    intro s' hs'
    have hnone := h.apartFrom T v s' (hshared s' hs')
    rw [Blocks, hshared s' hs', Variable.hasExclusiveLockExcludeSelf, hnone,
      Variable.hasSharedLockExcludeSelf, decide_eq_true (h.shared hT hs')]
    simp
  have hby : ∀ l : List SiteId, (∀ s' ∈ l, s' ∈ copySites v) → l ≠ [] →
      (σ.SentBy T v l ↔ σ.isWaitingForOthers T = true) := by
    intro l hl hne
    induction l with
    | nil => exact absurd rfl hne
    | cons s' l ih =>
        have hs' := hl s' List.mem_cons_self
        have hnone := h.apartFrom T v s' (hshared s' hs')
        rw [SentBy, hblocks s' hs', Variable.hasExclusiveLock, hnone]
        by_cases hnil : l = []
        · subst hnil
          simp [SentBy, h.up]
        · rw [ih (fun s'' hs'' => hl s'' (List.mem_cons_of_mem s' hs'')) hnil]
          simp [h.up]
  exact hby (copySites v) (fun _ => id)
    (List.ne_nil_of_mem (mem_copySites.mpr (home_mem_copies v)))

/-- The copies let a request through that is granted. -/
lemma passes (h : LocksUniform σ) (hg : LockGranted (σ.tryAcquireWriteLock T v))
    (hs : s ∈ copySites v) : Passes (σ.getVariable s v) T := by
  rcases tryAcquireWriteLock_answer σ T v with ⟨-, hdown, -⟩ | ha
  · rw [h.up] at hdown
    cases hdown
  · generalize σ.tryAcquireWriteLock T v = ls at hg ha
    cases ha with
    | waits => simp [LockGranted] at hg
    | owns => simp [LockGranted] at hg
    | grants _ _ hp => exact hp s hs (h.up s)

/-- An exclusive lock is granted on copies that nobody else shares. -/
lemma granted (h : LocksUniform σ) (hg : LockGranted (σ.tryAcquireWriteLock T v))
    (hop : ¬σ.SharedUpgrade (.writeLock T v)) (hs : s ∈ copySites v) :
    (σ.getVariable s v).exclusiveLockOwner = none ∧
      ∀ T' ∈ (σ.getVariable s v).sharedLockOwners, T' = T := by
  rcases h.passes hg hs with ⟨hT, -⟩ | ⟨hse, hxe, hsh, hx⟩
  · refine ⟨h.apartFrom T v s hT, fun T' hT' => ?_⟩
    by_contra hne
    have hmem : T ∈ (σ.getVariable s v).sharedLockOwners := of_decide_eq_true hT
    refine hop ⟨Bool.eq_false_iff.mpr fun hw => ?_, s, T', hne, hmem, hT'⟩
    rcases tryAcquireWriteLock_status (h.apartFrom T v) with ⟨-, -, -, hst⟩ |
      ⟨-, ⟨-, hst⟩ | ⟨hno, -⟩ | ⟨hno, -⟩⟩
    · simp [LockGranted, hst] at hg
    · simp [LockGranted, hst] at hg
    · exact hno ((h.sentToWait_iff hmem).mpr hw)
    · exact hno ((h.sentToWait_iff hmem).mpr hw)
  · refine ⟨exclusiveLockOwner_eq_none hxe hx, fun T' hT' => ?_⟩
    rw [Variable.hasSharedLock, decide_eq_false_iff_not] at hsh
    rw [Variable.hasSharedLockExcludeSelf, decide_eq_false hsh] at hse
    have hnil : (σ.getVariable s v).sharedLockOwners = [] := by simpa using hse
    rw [hnil] at hT'
    cases hT'

lemma writeLock (h : LocksUniform σ) (hop : ¬σ.SharedUpgrade (.writeLock T v))
    (hx : σ.lockStep o (.writeLock T v) = .ok σ') : LocksUniform σ' := by
  rw [lockStep] at hx
  split_ifs at hx with hst hwait
  · have hg : LockGranted (σ.tryAcquireWriteLock T v) := hst.symm
    have hmem : ∀ s, s ∈ (σ.tryAcquireWriteLock T v).siteIdSet ↔ s ∈ copySites v := fun s =>
      (mem_siteIdSet hg).trans (and_iff_left (h.up s))
    have ha := assigned_assignWriteLock (nodup_siteIdSet σ T v) h.named (fun s _ => h.up s) hx
    refine h.assigned (E := fun T' => T' = T) (S := fun _ => False) ha hmem
      (fun s hs T' => ?_) (fun s hs T' => ?_) (fun s hs => ?_) (fun _ => id)
      fun hT' => Or.inl (hT'.resolve_right id)
    · obtain ⟨hnone, -⟩ := h.granted hg hop hs
      rw [Variable.exclusiveLockOwner_setExclusiveTransaction fun T' hT' => ?_]
      · exact Option.some_inj.trans eq_comm
      · exact absurd (hnone.symm.trans hT') (by simp)
    · rw [Variable.sharedLockOwners_setExclusiveTransaction,
        Variable.mem_removeSharedOwner (h.tabled.nodup s v)]
      exact iff_of_false (fun hc => hc.2 ((h.granted hg hop hs).2 T' hc.1)) id
    · rw [Variable.sharedLockOwners_setExclusiveTransaction]
      exact (h.tabled.nodup s v).erase T
  · cases hx
    exact ⟨h.up, h.readable, h.named, ⟨h.tabled.owned, h.tabled.nodup⟩, h.onCopies, h.live, h.excl,
      h.shared, h.apart⟩
  · cases hx
    exact h

lemma release (h : LocksUniform σ) (hx : σ.lockStep o (.release T) = .ok σ') :
    LocksUniform σ' := by
  have heq : σ.releaseLocks o T = σ' := Except.ok.inj hx
  obtain ⟨hu, hfree⟩ := releaseLocks_spec h.tabled o T
    fun {s v} ho => mem_copySites.mp (h.onCopies ho)
  have htable := lockedVars_releaseLocks h.tabled.nodup o T
  rw [heq] at hu hfree htable
  have hexcl : ∀ {T' s v}, (σ'.getVariable s v).exclusiveLockOwner = some T' ↔
      (σ.getVariable s v).exclusiveLockOwner = some T' ∧ T' ≠ T := fun {T' s v} =>
    ⟨fun hx => ⟨(hu.var s v).excl T' hx, fun heq => (hfree s v).1 (heq ▸ hx)⟩,
      fun hx => (hu.var s v).excl_other T' hx.2 hx.1⟩
  have hshared : ∀ {T' s v}, T' ∈ (σ'.getVariable s v).sharedLockOwners ↔
      T' ∈ (σ.getVariable s v).sharedLockOwners ∧ T' ≠ T := fun {T' s v} =>
    ⟨fun hx => ⟨(hu.var s v).shared T' hx, fun heq => (hfree s v).2 (heq ▸ hx)⟩,
      fun hx => (hu.var s v).shared_other T' hx.2 hx.1⟩
  have hown : ∀ {T' s v}, σ'.Owns T' s v → σ.Owns T' s v ∧ T' ≠ T := fun {T' s v} ho =>
    ho.elim (fun hx => ⟨Or.inl (hexcl.mp hx).1, (hexcl.mp hx).2⟩)
      fun hs => ⟨Or.inr (hshared.mp hs).1, (hshared.mp hs).2⟩
  have htrans : σ'.transactions = σ.transactions := hu.transactions
  exact {
    up := fun s => (hu.up s).trans (h.up s)
    readable := fun s v => (hu.readable s v).trans (h.readable s v)
    named := fun {T' t'} ht' => h.named (htrans ▸ ht')
    tabled := by
      refine ⟨fun {T' s v} ho => ?_, fun s v => (hu.var s v).nodup (h.tabled.nodup s v)⟩
      obtain ⟨ho, hne⟩ := hown ho
      rw [htable, if_neg hne]
      exact h.tabled.owned ho
    onCopies := fun ho => h.onCopies (hown ho).1
    live := fun ho => htrans ▸ h.live (hown ho).1
    excl := fun hx hs' => hexcl.mpr ⟨h.excl (hexcl.mp hx).1 hs', (hexcl.mp hx).2⟩
    shared := fun hx hs' => hshared.mpr ⟨h.shared (hshared.mp hx).1 hs', (hshared.mp hx).2⟩
    apart := fun hx hs => h.apart (hexcl.mp hx).1 (hshared.mp hs).1 }

/-- The answer to one of several transactions that share the copies. -/
lemma status_of_shared (h : LocksUniform σ) (hw : σ.isWaitingForOthers T = false)
    (hT : T ∈ (σ.getVariable s v).sharedLockOwners) :
    (σ.tryAcquireWriteLock T v).status = .hasReadLock := by
  have hsent : ¬σ.SentToWait T v := fun hsent => by
    rw [h.sentToWait_iff hT, hw] at hsent
    cases hsent
  have hs := h.onCopies (Or.inr hT)
  have hshared : (σ.getVariable s v).hasSharedLock T = true := decide_eq_true hT
  have hholds : σ.HoldsLock T v := ⟨s, hs, h.up s, Or.inl hshared⟩
  have hno : (σ.tryAcquireWriteLock T v).status ≠ .hasWriteLock := fun hst => by
    rcases tryAcquireWriteLock_answer σ T v with ⟨-, hdown, -⟩ | ha
    · rw [h.up] at hdown
      cases hdown
    · generalize σ.tryAcquireWriteLock T v = ls at hst ha
      cases ha with
      | waits => cases hst
      | owns hs' _ hx =>
          have hT' := h.shared hT hs'
          exact h.apart (eq_of_beq hx) hT'
      | grants hg => simp [LockGranted, hst] at hg
  rcases tryAcquireWriteLock_status (h.apartFrom T v) with ⟨-, hdown, -⟩ |
    ⟨-, ⟨hs, -⟩ | ⟨-, -, hst | hst⟩ | ⟨-, hh, -⟩⟩
  · rw [h.up] at hdown
    cases hdown
  · exact absurd hs hsent
  · exact hst
  · exact absurd hst hno
  · exact absurd hholds hh

/-- **A step at the interface** that upgrades no shared lock keeps the locks apart. -/
theorem step (h : LocksUniform σ) (hop : ¬σ.SharedUpgrade op) (hx : σ.lockStep o op = .ok σ') :
    LocksUniform σ' := by
  cases op with
  | readLock T v => exact h.readLock hx
  | writeLock T v => exact h.writeLock hop hx
  | release T => exact h.release hx

/-- **An upgrade of a shared lock** is granted, and the other transaction keeps its lock. -/
theorem upgrade (h : LocksUniform σ) (hop : σ.SharedUpgrade op) :
    ∃ σ', σ.lockStep o op = .ok σ' ∧ ¬LocksApart σ' := by
  cases op with
  | readLock => cases hop
  | release => cases hop
  | writeLock T v =>
      obtain ⟨hw, s, T', hne, hT, hT'⟩ := hop
      have hs : s ∈ copySites v := h.onCopies (Or.inr hT)
      have hst := h.status_of_shared hw hT
      obtain ⟨σ', hx, -⟩ := exists_assignWriteLock (o := o) (v := v) (h.live (Or.inr hT))
        (σ.tryAcquireWriteLock T v).siteIdSet
      have ha := assigned_assignWriteLock (nodup_siteIdSet σ T v) h.named (fun s _ => h.up s) hx
      refine ⟨σ', by rw [lockStep, if_pos (Or.inr hst), hx], fun hap => hne ?_⟩
      have hon := (ha.variable_eq s v).trans (if_pos
        ⟨(mem_siteIdSet (Or.inl hst)).mpr ⟨hs, h.up s⟩, rfl⟩)
      have hnone := h.apartFrom T v s (decide_eq_true hT)
      have hx' : (σ'.getVariable s v).exclusiveLockOwner = some T := by
        rw [hon, Variable.exclusiveLockOwner_setExclusiveTransaction]
        exact fun T₁ hT₁ => absurd (hnone.symm.trans hT₁) (by simp)
      have hs' : T' ∈ (σ'.getVariable s v).sharedLockOwners := by
        rw [hon, Variable.sharedLockOwners_setExclusiveTransaction,
          Variable.mem_removeSharedOwner (h.tabled.nodup s v)]
        exact ⟨hT', hne⟩
      exact hap.shared hx' hs'

end LocksUniform

/-! ### Sequences of steps -/

lemma lockRun_concat {l : List (IterOrder × LockOp)} {p : IterOrder × LockOp} :
    σ.lockRun (l ++ [p]) = .ok σ' ↔ ∃ σ₁, σ.lockRun l = .ok σ₁ ∧ σ₁.lockStep p.1 p.2 = .ok σ' := by
  rw [lockRun, List.foldlM_append, bind_eq_ok]
  refine exists_congr fun σ₁ => and_congr_right fun _ => ?_
  rw [List.foldlM_cons, bind_eq_ok]
  constructor
  · rintro ⟨σ₂, h, h'⟩
    cases h'
    exact h
  · exact fun h => ⟨σ', h, rfl⟩

/-- A sequence of steps without such an upgrade. -/
lemma LocksUniform.run (h : LocksUniform σ) {l : List (IterOrder × LockOp)}
    (hno : ∀ l₁ p l₂ σ₁, l = l₁ ++ p :: l₂ → σ.lockRun l₁ = .ok σ₁ → LocksUniform σ₁ →
      ¬σ₁.SharedUpgrade p.2) (hl : σ.lockRun l = .ok σ') : LocksUniform σ' := by
  induction l using List.reverseRecOn generalizing σ' with
  | nil =>
      cases hl
      exact h
  | append_singleton l p ih =>
      obtain ⟨σ₁, hl, hp⟩ := lockRun_concat.mp hl
      have h₁ := ih (fun l₁ q l₂ σ₂ heq => hno l₁ q (l₂ ++ [p]) σ₂ (by simp [heq])) hl
      exact h₁.step (hno l p [] σ₁ rfl hl h₁) hp

/-- **Shared and exclusive locks are kept apart** in every state of a sequence of steps exactly when
none of the steps upgrades a lock that its transaction shares with another one. -/
theorem locks_apart_iff (h₀ : AllFree σ) (ops : List (IterOrder × LockOp)) :
    (∀ l₁ l₂ σ', ops = l₁ ++ l₂ → σ.lockRun l₁ = .ok σ' → LocksApart σ') ↔
    ∀ l₁ p l₂ σ', ops = l₁ ++ p :: l₂ → σ.lockRun l₁ = .ok σ' → ¬σ'.SharedUpgrade p.2 := by
  constructor
  · intro hall
    -- an upgrade would be a step to a state in which the locks are not apart
    have hno : ∀ l₁ p l₂ σ', ops = l₁ ++ p :: l₂ → σ.lockRun l₁ = .ok σ' → LocksUniform σ' →
        ¬σ'.SharedUpgrade p.2 := by
      intro l₁ p l₂ σ' heq hl hu hop
      obtain ⟨σ₁, hp, hnot⟩ := hu.upgrade (o := p.1) hop
      exact hnot (hall (l₁ ++ [p]) l₂ σ₁ (by simp [heq]) (lockRun_concat.mpr ⟨σ', hl, hp⟩))
    intro l₁ p l₂ σ' heq hl
    refine hno l₁ p l₂ σ' heq hl (h₀.uniform.run (fun l₃ q l₄ σ₁ heq₁ => ?_) hl)
    exact hno l₃ q (l₄ ++ p :: l₂) σ₁ (by simp [heq, heq₁])
  · intro hno l₁ l₂ σ' heq hl
    refine (h₀.uniform.run (fun l₃ q l₄ σ₁ heq₁ hl₁ _ => ?_) hl).apartness
    exact hno l₃ q (l₄ ++ l₂) σ₁ (by simp [heq, heq₁]) hl₁

section Runs

lemma allFree_initial : AllFree initial where
  up _ := rfl
  readable _ _ := rfl
  named h := by cases h
  excl _ _ := rfl
  shared _ _ := rfl

lemma AllFree.execCreate {ts : Timestamp} {b : Bool} (h : AllFree σ) :
    AllFree (σ.execCreate ts T b) where
  up := h.up
  readable := h.readable
  named := fun {T' t'} ht' => by
    rw [State.execCreate, transactions_emit, addTransaction, Dict.lookup_insert] at ht'
    split_ifs at ht' with hT
    · cases ht'
      exact hT.symm
    · exact h.named ht'
  excl := h.excl
  shared := h.shared

/-- Two transactions have begun. -/
def lockUsers : State := (initial.execCreate 0 1 false).execCreate 1 2 false

lemma allFree_lockUsers : AllFree lockUsers := allFree_initial.execCreate.execCreate

/-- The first reader releases its lock before the second one upgrades. -/
def beforeUpgrade : List (IterOrder × LockOp) :=
  [.readLock 1 x2, .readLock 2 x2, .release 1].map (IterOrder.stored, ·)

def lateUpgrade : List (IterOrder × LockOp) :=
  beforeUpgrade ++ [(IterOrder.stored, .writeLock 2 x2)]

theorem locks_apart_lateUpgrade : (∃ σ, lockUsers.lockRun lateUpgrade = .ok σ ∧
      (σ.getVariable s1 x2).exclusiveLockOwner = some 2) ∧
    ∀ l₁ l₂ σ, lateUpgrade = l₁ ++ l₂ → lockUsers.lockRun l₁ = .ok σ → LocksApart σ := by
  refine ⟨exists_ok_of_eval (by decide +kernel),
    (locks_apart_iff allFree_lockUsers lateUpgrade).mpr fun l₁ p l₂ σ heq hl => ?_⟩
  rcases List.eq_nil_or_concat l₂ with rfl | ⟨l, q, rfl⟩
  · -- the upgrade: only its own transaction shares the copies by then
    obtain ⟨rfl, hp⟩ := List.append_inj' heq rfl
    cases hp
    obtain ⟨σ₁, h₁, hf⟩ := exists_ok_of_eval (x := lockUsers.lockRun beforeUpgrade)
      (f := fun σ => decide (∀ s ∈ SiteId.all, (σ.getVariable s x2).sharedLockOwners = [2]))
      (a := true) (by decide +kernel)
    rw [Except.ok.inj (hl.symm.trans h₁)]
    rintro ⟨-, s, T', hne, -, hT'⟩
    rw [of_decide_eq_true hf s (SiteId.mem_all s)] at hT'
    exact hne (List.mem_singleton.mp hT')
  · -- the steps before it ask for no exclusive lock
    have hmem : p ∈ beforeUpgrade := by
      have heq' : lateUpgrade = (l₁ ++ p :: l) ++ [q] := heq.trans (by simp)
      obtain ⟨hl₁, -⟩ := List.append_inj' heq' rfl
      rw [hl₁]
      exact List.mem_append_right l₁ List.mem_cons_self
    simp only [beforeUpgrade, List.map_cons, List.map_nil, List.mem_cons, List.not_mem_nil] at hmem
    rcases hmem with rfl | rfl | rfl | hmem
    · exact id
    · exact id
    · exact id
    · exact hmem.elim

/-- Both readers hold their locks when the first one upgrades. -/
def earlyUpgrade : List (IterOrder × LockOp) :=
  [.readLock 1 x2, .readLock 2 x2, .writeLock 1 x2].map (IterOrder.stored, ·)

/-- **The lock manager grants an upgrade of a shared lock**: the copy has an exclusive owner beside
another shared owner. -/
theorem shared_upgrade_granted : AllFree lockUsers ∧
    ∃ σ, lockUsers.lockRun earlyUpgrade = .ok σ ∧
      (σ.getVariable s1 x2).exclusiveLockOwner = some 1 ∧
      2 ∈ (σ.getVariable s1 x2).sharedLockOwners := by
  obtain ⟨σ, h, hf⟩ := exists_ok_of_eval (x := lockUsers.lockRun earlyUpgrade)
    (f := fun σ => decide ((σ.getVariable s1 x2).exclusiveLockOwner = some 1 ∧
      2 ∈ (σ.getVariable s1 x2).sharedLockOwners)) (a := true) (by decide +kernel)
  exact ⟨allFree_lockUsers, σ, h, of_decide_eq_true hf⟩

end Runs

end State

end RepCRec
