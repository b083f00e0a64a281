import RepCRec.Engine.ReadOnly
import RepCRec.Refinement.Effects

/-!
The interface of the lock manager on its own: a transaction acquires a shared lock, acquires an
exclusive lock, or releases all its locks (`LockOp`, `lockStep`), in any order (`lockRun`). What the
two assigning functions do to the copies is `Assigned`.
-/

namespace RepCRec

open Container (IterOrder bind_eq_ok pure_eq_ok)

/-- The steps at the interface of the lock manager. -/
inductive LockOp where
  | readLock (T : TranId) (v : VarId)
  | writeLock (T : TranId) (v : VarId)
  | release (T : TranId)

namespace State

/-- One step at the interface: a lock that is granted is assigned at the sites of the answer, and a
write that has to wait enters the wait-for graph. -/
def lockStep (o : IterOrder) (op : LockOp) (σ : State) : Except Fault State :=
  match op with
  | .readLock T v =>
      let ls := σ.tryAcquireReadLock T v
      if ls.status = .availableToAssign then σ.assignShareLock o T ls.siteIdSet v else .ok σ
  | .writeLock T v =>
      let ls := σ.tryAcquireWriteLock T v
      if ls.status = .availableToAssign ∨ ls.status = .hasReadLock then
        σ.assignWriteLock o T ls.siteIdSet v
      else if ls.status = .needToWait then .ok (σ.assignWaitForGraph o T ls.ownerIdSet)
      else .ok σ
  | .release T => .ok (σ.releaseLocks o T)

/-- Steps at the interface, each with the order in which it visits the unordered containers. -/
def lockRun (σ : State) (ops : List (IterOrder × LockOp)) : Except Fault State :=
  ops.foldlM (fun σ p => σ.lockStep p.1 p.2) σ

variable {o : IterOrder} {σ σ' σ₁ : State} {T T' : TranId} {v w : VarId} {s : SiteId}
  {L : List SiteId}

/-- The copies of `v` in `L` are changed by `g`, and the lock table of `T` has `v` then. -/
structure Assigned (T : TranId) (v : VarId) (g : Variable → Variable) (L : List SiteId)
    (σ σ' : State) : Prop where
  variable_eq : ∀ s w, σ'.getVariable s w =
    if s ∈ L ∧ w = v then g (σ.getVariable s w) else σ.getVariable s w
  up : ∀ s, σ'.isWriteAvailable s = σ.isWriteAvailable s
  readable : ∀ s w, σ'.isReadAvailable s w = σ.isReadAvailable s w
  transactions : σ'.transactions = σ.transactions
  waitForGraph : σ'.waitForGraph = σ.waitForGraph
  table : ∀ T' w, w ∈ σ'.lockedVars T' ↔ w ∈ σ.lockedVars T' ∨ (T' = T ∧ w = v ∧ L ≠ [])
  live : L ≠ [] → T ∈ σ.transactions

namespace Assigned

variable {g : Variable → Variable}

lemma nil (σ : State) (T : TranId) (v : VarId) (g : Variable → Variable) :
    Assigned T v g [] σ σ where
  variable_eq s w := (if_neg fun h => List.not_mem_nil h.1).symm
  up _ := rfl
  readable _ _ := rfl
  transactions := rfl
  waitForGraph := rfl
  table T' w := by simp
  live h := absurd rfl h

lemma cons (hs : s ∉ L) (h : Assigned T v g [s] σ σ₁) (h' : Assigned T v g L σ₁ σ') :
    Assigned T v g (s :: L) σ σ' where
  variable_eq s' w := by
    rw [h'.variable_eq, h.variable_eq]
    by_cases hw : w = v
    · by_cases hL : s' ∈ L
      · have hne : s' ≠ s := fun heq => hs (heq ▸ hL)
        simp [hw, hL, hne]
      · by_cases heq : s' = s <;> simp [hw, hL, heq, hs]
    · simp [hw]
  up s' := (h'.up s').trans (h.up s')
  readable s' w := (h'.readable s' w).trans (h.readable s' w)
  transactions := h'.transactions.trans h.transactions
  waitForGraph := h'.waitForGraph.trans h.waitForGraph
  table T' w := by
    rw [h'.table, h.table, or_assoc, ← and_or_left, ← and_or_left]
    simp
  live _ := h.live (List.cons_ne_nil s [])

lemma mem_congr {L' : List SiteId} (hL : ∀ s, s ∈ L' ↔ s ∈ L) (h : Assigned T v g L σ σ') :
    Assigned T v g L' σ σ' := by
  have hnil : L' ≠ [] ↔ L ≠ [] := not_congr <| by
    rw [List.eq_nil_iff_forall_not_mem, List.eq_nil_iff_forall_not_mem]
    exact forall_congr' fun s => not_congr (hL s)
  exact ⟨fun s w => (h.variable_eq s w).trans (if_congr (by rw [hL]) rfl rfl), h.up, h.readable,
    h.transactions, h.waitForGraph,
    fun T' w => by rw [h.table, hnil], fun hne => h.live (hnil.mp hne)⟩

lemma single (hT : T ∈ σ.transactions) (s : SiteId) (v : VarId) (g : Variable → Variable) :
    Assigned T v g [s] σ ((σ.recordLock T v).modifyVariable s v g) where
  variable_eq s' w := by
    rw [getVariable_modifyVariable]
    by_cases h : s' = s ∧ w = v
    · obtain ⟨rfl, rfl⟩ := h
      rw [if_pos ⟨rfl, rfl⟩, if_pos ⟨List.mem_singleton_self s', rfl⟩]
      rfl
    · rw [if_neg h, if_neg (by rwa [List.mem_singleton])]
      rfl
  up s' := isWriteAvailable_modifyVariable _ s s' v g
  readable s' w := isReadAvailable_modifyVariable _ s s' v w g
  transactions := rfl
  waitForGraph := rfl
  table T' w := by
    refine (lockedVars_recordLock σ T T' v w).trans (or_congr_right ?_)
    simp
  live _ := hT

/-- A loop over sites that changes one copy after the other. -/
lemma of_foldlM {f : State → SiteId → Except Fault State} (hL : L.Nodup) (hn : σ.Named)
    (hf : ∀ s ∈ L, ∀ σ₁ σ₂, σ₁.Named → (∀ s, σ₁.isWriteAvailable s = σ.isWriteAvailable s) →
      (∀ s w, σ₁.isReadAvailable s w = σ.isReadAvailable s w) → f σ₁ s = .ok σ₂ →
      Assigned T v g [s] σ₁ σ₂) (h : L.foldlM f σ = .ok σ') : Assigned T v g L σ σ' := by
  induction L generalizing σ with
  | nil =>
      cases h
      exact nil _ T v g
  | cons s L ih =>
      rw [List.foldlM_cons, bind_eq_ok] at h
      obtain ⟨σ₁, h1, h⟩ := h
      obtain ⟨hs, hL⟩ := List.nodup_cons.mp hL
      have h₁ := hf s List.mem_cons_self σ σ₁ hn (fun _ => rfl) (fun _ _ => rfl) h1
      refine h₁.cons hs (ih hL (fun {T' t'} ht' => hn (h₁.transactions ▸ ht')) ?_ h)
      exact fun s' hs' σ₂ σ₃ hn₂ hup hre => hf s' (List.mem_cons_of_mem s hs') σ₂ σ₃ hn₂
        (fun s => (hup s).trans (h₁.up s)) fun s w => (hre s w).trans (h₁.readable s w)

end Assigned

/-- Assigning exclusive locks at sites that are up. -/
lemma assigned_assignWriteLock (hL : L.Nodup) (hn : σ.Named)
    (hup : ∀ s ∈ L, σ.isWriteAvailable s = true) (h : σ.assignWriteLock o T L v = .ok σ') :
    Assigned T v (fun x => (x.removeSharedOwner T).setExclusiveTransaction T) L σ σ' := by
  refine (Assigned.of_foldlM (o.nodup_visit hL) hn (fun s hs σ₁ σ₂ hn₁ hup₁ _ h => ?_) h).mem_congr
    fun s => (o.mem_visit).symm
  rw [if_pos ((hup₁ s).trans (hup s ((o.mem_visit).mp hs))), bind_eq_ok] at h
  obtain ⟨t, ht, h⟩ := h
  cases h
  have hT := getTransaction_eq_ok.mp ht
  rw [hn₁ hT]
  exact .single (Dict.mem_of_lookup hT) s v _

/-- Assigning shared locks at sites where the copy is readable. -/
lemma assigned_assignShareLock (hL : L.Nodup) (hn : σ.Named)
    (hre : ∀ s ∈ L, σ.isReadAvailable s v = true) (h : σ.assignShareLock o T L v = .ok σ') :
    Assigned T v (fun x => x.addSharedTransaction T) L σ σ' := by
  refine (Assigned.of_foldlM (o.nodup_visit hL) hn (fun s hs σ₁ σ₂ hn₁ _ hre₁ h => ?_) h).mem_congr
    fun s => (o.mem_visit).symm
  rw [if_pos ((hre₁ s v).trans (hre s ((o.mem_visit).mp hs))), bind_eq_ok] at h
  obtain ⟨t, ht, h⟩ := h
  cases h
  have hT := getTransaction_eq_ok.mp ht
  rw [hn₁ hT]
  exact .single (Dict.mem_of_lookup hT) s v _

/-! ### The answers -/

lemma exclusiveLockOwner_eq_none {x : Variable} (h : x.hasExclusiveLockExcludeSelf T = false)
    (h' : x.hasExclusiveLock T = false) : x.exclusiveLockOwner = none := by
  cases hx : x.exclusiveLockOwner with
  | none => rfl
  | some T' => simp_all [Variable.hasExclusiveLockExcludeSelf, Variable.hasExclusiveLock]

lemma tryAcquireReadLoop_available (hup : ∀ s, σ.isWriteAvailable s = true) (l : List SiteId)
    {ls : LockStatus} (hn : ls.siteIdSet.Nodup)
    (h : (σ.tryAcquireReadLoop T v l ls).status = .availableToAssign) :
    (σ.tryAcquireReadLoop T v l ls).siteIdSet.Nodup ∧
    (∀ s, s ∈ (σ.tryAcquireReadLoop T v l ls).siteIdSet ↔ s ∈ ls.siteIdSet ∨ s ∈ l) ∧
    ∀ s ∈ l, (σ.getVariable s v).exclusiveLockOwner = none := by
  induction l generalizing ls with
  | nil => exact ⟨hn, fun s => by simp [tryAcquireReadLoop], fun s hs => by cases hs⟩
  | cons s l ih =>
      rw [tryAcquireReadLoop, if_neg (by simp [hup s])] at h ⊢
      dsimp only at h ⊢
      split_ifs at h ⊢ with h1 h2
      rw [Bool.or_eq_true, not_or, Bool.not_eq_true] at h2
      obtain ⟨ih1, ih2, ih3⟩ := @ih { ls with siteIdSet := ls.siteIdSet.insert s }
        hn.insert h
      refine ⟨ih1, fun s' => ?_, List.forall_mem_cons.mpr ⟨?_, ih3⟩⟩
      · rw [ih2, List.mem_insert_iff, List.mem_cons]
        tauto
      · exact exclusiveLockOwner_eq_none (Bool.not_eq_true _ ▸ h1) h2.1

/-- A shared lock is granted at all copies when no transaction has an exclusive lock on one. -/
lemma tryAcquireReadLock_available (hup : ∀ s, σ.isWriteAvailable s = true)
    (h : (σ.tryAcquireReadLock T v).status = .availableToAssign) :
    (σ.tryAcquireReadLock T v).siteIdSet.Nodup ∧
    (∀ s, s ∈ (σ.tryAcquireReadLock T v).siteIdSet ↔ s ∈ copySites v) ∧
    ∀ s ∈ copySites v, (σ.getVariable s v).exclusiveLockOwner = none := by
  cases hv : v.isOdd with
  | false =>
      rw [tryAcquireReadLock, hv, if_neg (by decide)] at h ⊢
      rw [copySites, hv, if_neg (by decide)]
      obtain ⟨h1, h2, h3⟩ := tryAcquireReadLoop_available hup SiteId.all List.nodup_nil h
      exact ⟨h1, fun s => (h2 s).trans (by simp), h3⟩
  | true =>
      rw [tryAcquireReadLock, hv, if_pos rfl] at h ⊢
      rw [copySites, hv, if_pos rfl]
      dsimp only at h ⊢
      split_ifs at h ⊢ with h1 h2 h3
      rw [Bool.or_eq_true, not_or, Bool.not_eq_true] at h3
      refine ⟨List.nodup_singleton _, fun s => Iff.rfl, fun s hs => ?_⟩
      rw [List.mem_singleton.mp hs]
      exact exclusiveLockOwner_eq_none (Bool.not_eq_true _ ▸ h2) h3.1

lemma nodup_tryAcquireWriteLoop (l : List SiteId) {ls : LockStatus} (hn : ls.siteIdSet.Nodup) :
    (σ.tryAcquireWriteLoop T v l ls).siteIdSet.Nodup := by
  induction l generalizing ls with
  | nil => exact hn
  | cons s l ih =>
      rw [tryAcquireWriteLoop]
      dsimp only
      split_ifs
      · exact ih hn
      · exact ih hn.insert
      · exact List.nodup_nil
      · exact List.nodup_nil
      · exact ih hn.insert

lemma nodup_siteIdSet (σ : State) (T : TranId) (v : VarId) :
    (σ.tryAcquireWriteLock T v).siteIdSet.Nodup := by
  rw [tryAcquireWriteLock]
  dsimp only
  split_ifs
  · exact List.nodup_nil
  · exact List.nodup_singleton _
  · exact List.nodup_nil
  · exact List.nodup_nil
  · exact List.nodup_singleton _
  · exact nodup_tryAcquireWriteLoop SiteId.all List.nodup_nil

end State

end RepCRec
