import RepCRec.Orders.Alike
import RepCRec.Refinement.View

/-!
The loops over unordered containers that take and give back locks. Assigning a lock and recording a
value at several sites leave alike states in every order of the sites, and so does releasing the
locks of a transaction. The aborts of two transactions may be swapped (`abortTransaction_comm`).
-/

namespace RepCRec

open Container (IterOrder Agree ok_bind foldl_perm foldl_comm)

namespace Variable

lemma releaseOwner_eq (x : Variable) (T : TranId) : x.releaseOwner T =
    { x with
      exclusiveLockOwner :=
        if x.exclusiveLockOwner = some T then none else x.exclusiveLockOwner
      sharedLockOwners := x.sharedLockOwners.erase T } := by
  rw [releaseOwner, hasExclusiveLock]
  by_cases h : x.exclusiveLockOwner = some T
  · simp [h, removeSharedOwner, removeExclusiveOwner]
  · simp [h, removeSharedOwner]

/-- The locks of two transactions on the same copy. -/
lemma releaseOwner_comm (x : Variable) (T T' : TranId) :
    (x.releaseOwner T).releaseOwner T' = (x.releaseOwner T').releaseOwner T := by
  simp only [releaseOwner_eq, List.erase_comm T T']
  congr 1
  split_ifs <;> simp_all

end Variable

namespace State

variable {O : Observer} {o o' : IterOrder} {σ σ' : State} {T T' : TranId} {v v' : VarId}
  {s s' : SiteId} {x : Value}

/-- A loop over an unordered container, in two orders. -/
lemma Alike.visit {α : Type} {f : State → α → Except Fault State}
    (hcongr : ∀ a σ σ', σ.Alike O σ' → Agree (Alike O) (f σ a) (f σ' a))
    (hswap : ∀ σ a b, Agree (Alike O) (f σ a >>= fun σ => f σ b) (f σ b >>= fun σ => f σ a))
    (h : σ.Alike O σ') (o o' : IterOrder) (l : List α) :
    Agree (Alike O) ((o.visit l).foldlM f σ) ((o'.visit l).foldlM f σ') := by
  refine Agree.trans (R := Alike O) Alike.trans (.foldlM hcongr _ h) ?_
  exact .foldlM_perm (P := fun _ _ => True) (Alike.refl O) Alike.trans hcongr (fun _ => id)
    (fun _ _ => trivial) (fun _ => hswap _ _ _) ((o.perm l).trans (o'.perm l).symm) trivial

/-! ### Copies -/

/-- Changes of different copies, or changes of one copy that may be swapped. -/
lemma modifyVariable_comm (σ : State) {g g' : Variable → Variable}
    (hg : s = s' → v = v' → ∀ x, g' (g x) = g (g' x)) :
    (σ.modifyVariable s v g).modifyVariable s' v' g' =
      (σ.modifyVariable s' v' g').modifyVariable s v g := by
  rw [modifyVariable, modifyVariable, modifyVariable, modifyVariable]
  by_cases hs : s = s'
  · subst hs
    by_cases hv : v = v'
    · subst hv
      simp [modifySite, hg rfl rfl]
    · simp [modifySite, Function.update_comm hv, Ne.symm hv, hv]
  · simp [modifySite, Function.update_comm hs, Ne.symm hs, hs]

/-- The same copy is changed. -/
lemma Alike.modifyVariable (h : σ.Alike O σ') (s : SiteId) (v : VarId) (g : Variable → Variable) :
    (σ.modifyVariable s v g).Alike O (σ'.modifyVariable s v g) :=
  h.modifySite s _

/-! ### Assigning locks and recording values -/

/-- The same writes are recorded, whatever the order of the sites. -/
lemma Alike.updateValuesAt (h : σ.Alike O σ') (o o' : IterOrder) (T : TranId) (L : List SiteId)
    (v : VarId) (x : Value) :
    Agree (Alike O) (σ.updateValuesAt o T L v x) (σ'.updateValuesAt o' T L v x) := by
  refine Alike.visit (fun s σ σ' h => ?_) (fun σ s s' => ?_) h o o' L
  · exact h.modifyTransaction T fun t t' ht => ht.updateValues s v x
  · simp only [State.modifyTransaction, State.getTransaction]
    cases ht : σ.transactions.lookup T with
    | none => exact .error _
    | some t =>
        simp only [ok_bind, pure, Except.pure, AList.lookup_insert, AList.insert_insert]
        refine .ok { Alike.refl O σ with
          transactions := (Dict.Rel.refl Transaction.Alike.refl σ.transactions).insert T ?_ }
        exact .updateValues_comm t s s' v x

/-- The lock on the copy of `v` at `s`, changed by `g`, entered into the lock table of `T`. -/
def lockCopy (T : TranId) (v : VarId) (g : Variable → Variable) (σ : State) (s : SiteId) :
    State := (σ.modifyVariable s v g).recordLock T v

lemma sites_lockCopy (g : Variable → Variable) (σ : State) (hs : s ≠ s') :
    (lockCopy T v g σ s).sites s' = σ.sites s' := by
  rw [lockCopy, recordLock, modifyVariable, sites_modifySite, if_neg (Ne.symm hs)]

/-- Two copies are locked in either order. -/
lemma lockCopy_comm (g : Variable → Variable) (σ : State) (hs : s ≠ s') :
    lockCopy T v g (lockCopy T v g σ s) s' = lockCopy T v g (lockCopy T v g σ s') s := by
  have h : (σ.modifyVariable s v g).modifyVariable s' v g =
      (σ.modifyVariable s' v g).modifyVariable s v g :=
    modifyVariable_comm σ fun heq => absurd heq hs
  exact congrArg (fun σ : State => (σ.recordLock T v).recordLock T v) h

lemma transactions_lockCopy (g : Variable → Variable) (σ : State) :
    (lockCopy T v g σ s).transactions = σ.transactions := rfl

/-- A loop that takes locks on the copies of `v` at those sites that pass a test. -/
lemma Alike.lockAt {f : State → SiteId → Except Fault State} {p : Site → Bool}
    {g : TranId → Variable → Variable} (hf : ∀ σ s, f σ s = if p (σ.sites s) then
      σ.getTransaction T >>= fun t => .ok (lockCopy T v (g t.transactionId) σ s) else .ok σ)
    (h : σ.Alike O σ') (o o' : IterOrder) (L : List SiteId) :
    Agree (Alike O) ((o.visit L).foldlM f σ) ((o'.visit L).foldlM f σ') := by
  refine Alike.visit (fun s σ σ' h => ?_) (fun σ s s' => ?_) h o o' L
  · rw [hf, hf, h.sites]
    split_ifs
    · refine (h.getTransaction T).bind fun t t' ht => .ok ?_
      rw [ht.transactionId]
      exact (h.modifyVariable s v _).recordLock T v
    · exact .ok h
  · by_cases hs : s = s'
    · rw [hs]
      exact .refl (Alike.refl O) _
    · have hs' : s' ≠ s := Ne.symm hs
      suffices heq : (f σ s >>= fun σ => f σ s') = (f σ s' >>= fun σ => f σ s) by
        rw [heq]
        exact .refl (Alike.refl O) _
      simp only [hf, State.getTransaction]
      cases ht : σ.transactions.lookup T with
      | none =>
          cases h1 : p (σ.sites s) <;> cases h2 : p (σ.sites s') <;> simp [h1, h2, ht]
      | some t =>
          cases h1 : p (σ.sites s) <;> cases h2 : p (σ.sites s') <;>
            simp [h1, h2, ht, sites_lockCopy, hs, hs', transactions_lockCopy, lockCopy_comm]

/-- `assign_write_lock` in two orders of the sites. -/
lemma Alike.assignWriteLock (h : σ.Alike O σ') (o o' : IterOrder) (T : TranId) (L : List SiteId)
    (v : VarId) : Agree (Alike O) (σ.assignWriteLock o T L v) (σ'.assignWriteLock o' T L v) :=
  h.lockAt (p := Site.writeAvailable)
    (g := fun T' x => (x.removeSharedOwner T).setExclusiveTransaction T') (fun _ _ => rfl) o o' L

/-- `assign_share_lock` in two orders of the sites. -/
lemma Alike.assignShareLock (h : σ.Alike O σ') (o o' : IterOrder) (T : TranId) (L : List SiteId)
    (v : VarId) : Agree (Alike O) (σ.assignShareLock o T L v) (σ'.assignShareLock o' T L v) :=
  h.lockAt (p := fun st => st.readAvailable v)
    (g := fun T' x => x.addSharedTransaction T') (fun _ _ => rfl) o o' L

/-! ### Releasing locks -/

/-- Two copies are released in either order. -/
lemma releaseCopy_comm (σ : State) (T T' : TranId) (v v' : VarId) (s s' : SiteId) :
    (σ.releaseCopy T v s).releaseCopy T' v' s' = (σ.releaseCopy T' v' s').releaseCopy T v s :=
  modifyVariable_comm σ fun _ _ x => x.releaseOwner_comm T T'

lemma releaseVariable_eq (σ : State) (T : TranId) (v : VarId) :
    σ.releaseVariable T v = (copySites v).foldl (releaseCopy T v) σ := by
  rw [releaseVariable, copySites]
  split_ifs <;> rfl

/-- Two variables are released in either order. -/
lemma releaseVariable_comm (σ : State) (T T' : TranId) (v v' : VarId) :
    (σ.releaseVariable T v).releaseVariable T' v' =
      (σ.releaseVariable T' v').releaseVariable T v := by
  simp only [releaseVariable_eq]
  exact foldl_comm (fun σ s s' => releaseCopy_comm σ T T' v v' s s') _ _ σ

/-- A loop whose iterations change the sites only. -/
lemma foldl_sites {α : Type} {f : State → α → State}
    (hf : ∀ σ a, f σ a = { σ with sites := (f σ a).sites }) (l : List α) (σ : State) :
    l.foldl f σ = { σ with sites := (l.foldl f σ).sites } :=
  Container.foldl_induction (P := fun τ : State => τ = { σ with sites := τ.sites })
    (fun a _ τ hτ => (hf τ a).trans
      (congrArg (fun ρ : State => { ρ with sites := (f τ a).sites }) hτ)) rfl

/-- Releasing variables changes the sites only. -/
lemma foldl_releaseVariable (L : List VarId) (σ : State) (T : TranId) :
    L.foldl (releaseVariable T) σ = { σ with sites := (L.foldl (releaseVariable T) σ).sites } := by
  refine foldl_sites (fun σ v => ?_) L σ
  rw [releaseVariable_eq]
  exact foldl_sites (fun _ _ => rfl) (copySites v) σ

/-- The released sites depend on the sites alone, and not on the order of the variables. -/
lemma sites_foldl_releaseVariable {L L' : List VarId} (hL : L.Perm L')
    (h : σ'.sites = σ.sites) :
    (L'.foldl (releaseVariable T) σ').sites = (L.foldl (releaseVariable T) σ).sites := by
  refine foldl_perm (R := fun σ σ' : State => σ'.sites = σ.sites) (fun _ => rfl)
    (fun h h' => h'.trans h) (fun v σ σ' h => ?_) hL
    (fun v _ v' _ σ => by rw [releaseVariable_comm]) h
  rw [releaseVariable_eq, releaseVariable_eq]
  refine foldl_perm (R := fun σ σ' : State => σ'.sites = σ.sites) (fun _ => rfl)
    (fun h h' => h'.trans h) (fun s σ σ' h => ?_) (List.Perm.refl _)
    (fun s _ s' _ σ => by rw [releaseCopy_comm]) h
  rw [releaseCopy, releaseCopy, modifyVariable, modifyVariable, modifySite, modifySite, h]

lemma releaseLocks_eq (σ : State) (o : IterOrder) (T : TranId) : σ.releaseLocks o T =
    { σ with
      sites := ((o.visit (σ.lockedVars T)).foldl (releaseVariable T) σ).sites
      waitForGraph := (σ.releaseLocks o T).waitForGraph
      lockTable := σ.lockTable.erase T } := by
  rw [releaseLocks]
  dsimp only
  rw [← lockedVars, foldl_releaseVariable]

lemma perm_remaining {p : Prop} [Decidable p] {w w' : List TranId} (h : w.Perm w') :
    (if p ∨ w.erase T = [] then [] else w).Perm (if p ∨ w'.erase T = [] then [] else w') := by
  have hnil : w.erase T = [] ↔ w'.erase T = [] := by
    rw [← List.length_eq_zero_iff, (h.erase T).length_eq, List.length_eq_zero_iff]
  simp only [hnil]
  split_ifs
  · exact List.Perm.refl _
  · exact h

/-- `release_locks` in two orders of the locked variables and of the edges. -/
lemma Alike.releaseLocks (h : σ.Alike O σ') (o o' : IterOrder) (T : TranId) :
    (σ.releaseLocks o T).Alike O (σ'.releaseLocks o' T) := by
  have hwaits : ∀ T', ((σ.releaseLocks o T).waitsFor T').Perm
      ((σ'.releaseLocks o' T).waitsFor T') := by
    intro T'
    rw [waitsFor_releaseLocks, waitsFor_releaseLocks]
    exact perm_remaining (h.waitsFor T')
  have hvars : σ'.lockedVars T = σ.lockedVars T := by rw [lockedVars, h.lockTable, lockedVars]
  have hperm := (o.perm (σ.lockedVars T)).trans (o'.perm (σ.lockedVars T)).symm
  rw [releaseLocks_eq σ, releaseLocks_eq σ']
  refine { h with sites := ?_, waitsFor := hwaits, lockTable := ?_ }
  · rw [hvars]
    exact sites_foldl_releaseVariable hperm h.sites
  · rw [h.lockTable]

/-! ### Ending a transaction -/

/-- The same transaction is evicted. -/
lemma Alike.evictTransaction (h : σ.Alike O σ') (T : TranId) :
    Agree (Alike O) (σ.evictTransaction T) (σ'.evictTransaction T) := by
  rw [State.evictTransaction, State.evictTransaction]
  cases ht : σ.transactions.lookup T with
  | none =>
      rw [h.transactions.lookup_eq_none ht]
      simp only [h.transactionsSet]
      split_ifs
      · exact .ok h
      · exact .error _
  | some t =>
      obtain ⟨t', ht', hr⟩ := h.transactions.lookup T t ht
      rw [ht']
      refine .ok { h with transactionsSet := ?_, transactions := h.transactions.erase T }
      rw [h.transactionsSet, hr.timestamp]

/-- `abort_transaction` in two orders. -/
lemma Alike.abortTransaction (h : σ.Alike O σ') (o o' : IterOrder) (T : TranId) :
    Agree (Alike O) (σ.abortTransaction o T) (σ'.abortTransaction o' T) := by
  refine (h.evictTransaction T).bind fun σ₁ σ₁' h₁ => .pure (.emit ?_ (O.refl _))
  refine Alike.releaseLocks ?_ o o' T
  exact { h₁ with queue := by rw [h₁.queue] }

/-- What the abort of a live transaction changes. -/
structure Aborting (o : IterOrder) (T : TranId) (t : Transaction) (σ σ' : State) : Prop where
  request : σ'.request = σ.request
  sites : σ'.sites = ((o.visit (σ.lockedVars T)).foldl (releaseVariable T) σ).sites
  lockTable : σ'.lockTable = σ.lockTable.erase T
  waits : ∀ T', σ'.waitsFor T' =
    if T' = T ∨ (σ.waitsFor T').erase T = [] then [] else σ.waitsFor T'
  transactionsSet : σ'.transactionsSet =
    σ.transactionsSet.filter fun r => r.timestamp != t.timestamp
  siteWaitingMap : σ'.siteWaitingMap = σ.siteWaitingMap
  transactions : σ'.transactions = σ.transactions.erase T
  queue : σ'.blockedTransactionsQueue = σ.blockedTransactionsQueue.erase T
  trace : σ'.trace = σ.trace ++ [.aborted T]

/-- A live transaction can be aborted. -/
lemma exists_aborting {t : Transaction} (ht : σ.transactions.lookup T = some t) :
    ∃ σ', σ.abortTransaction o T = .ok σ' ∧ Aborting o T t σ σ' := by
  set σ₁ : State := { σ with
    transactionsSet := σ.transactionsSet.filter fun r => r.timestamp != t.timestamp
    transactions := σ.transactions.erase T
    blockedTransactionsQueue := σ.blockedTransactionsQueue.erase T } with hσ₁
  refine ⟨(σ₁.releaseLocks o T).emit (.aborted T), ?_, ?_⟩
  · rw [abortTransaction, evictTransaction, ht]
    rfl
  have hw := waitsFor_releaseLocks σ₁ o T
  rw [releaseLocks_eq] at hw ⊢
  exact ⟨rfl, sites_foldl_releaseVariable (List.Perm.refl _) rfl, rfl, hw, rfl, rfl, rfl, rfl, rfl⟩

namespace Aborting

variable {t t' : Transaction} {σ₁ σ₂ σ₃ σ₄ : State}

lemma lockedVars (h : Aborting o T t σ σ₁) (hne : T' ≠ T) : σ₁.lockedVars T' = σ.lockedVars T' := by
  rw [State.lockedVars, h.lockTable, AList.lookup_erase_ne hne, State.lockedVars]

lemma lookup (h : Aborting o T t σ σ₁) (hne : T' ≠ T) :
    σ₁.transactions.lookup T' = σ.transactions.lookup T' := by
  rw [h.transactions, AList.lookup_erase_ne hne]

/-- The edges that two aborts leave. -/
lemma waits_waits (h : Aborting o T t σ σ₁) (h' : Aborting o T' t' σ₁ σ₂) (T'' : TranId) :
    σ₂.waitsFor T'' = if (T'' = T ∨ (σ.waitsFor T'').erase T = []) ∨
      (T'' = T' ∨ (σ.waitsFor T'').erase T' = []) then [] else σ.waitsFor T'' := by
  rw [h'.waits, h.waits]
  by_cases h1 : T'' = T ∨ (σ.waitsFor T'').erase T = []
  · simp only [h1, if_true, true_or, ite_self]
  · simp only [h1, if_false, false_or]

/-- The aborts of two transactions in both orders. -/
lemma swap (hne : T ≠ T') (h₁ : Aborting o T t σ σ₁) (h₃ : Aborting o T' t' σ₁ σ₃)
    (h₂ : Aborting o T' t' σ σ₂) (h₄ : Aborting o T t σ₂ σ₄)
    (hO : O.Same [.aborted T, .aborted T'] [.aborted T', .aborted T]) : σ₃.Alike O σ₄ where
  request := by rw [h₃.request, h₁.request, h₄.request, h₂.request]
  sites := by
    rw [h₃.sites, h₄.sites, h₁.lockedVars (Ne.symm hne), h₂.lockedVars hne,
      sites_foldl_releaseVariable (List.Perm.refl _) h₁.sites,
      sites_foldl_releaseVariable (List.Perm.refl _) h₂.sites,
      foldl_comm fun σ v v' => releaseVariable_comm σ T T' v v']
  lockTable := by rw [h₃.lockTable, h₁.lockTable, h₄.lockTable, h₂.lockTable, AList.erase_erase]
  waitsFor T'' := by
    rw [h₁.waits_waits h₃, h₂.waits_waits h₄]
    exact .of_eq (if_congr or_comm rfl rfl)
  transactionsSet := by
    rw [h₃.transactionsSet, h₁.transactionsSet, h₄.transactionsSet, h₂.transactionsSet,
      List.filter_comm]
  siteWaitingMap := by
    rw [h₃.siteWaitingMap, h₁.siteWaitingMap, h₄.siteWaitingMap, h₂.siteWaitingMap]
  transactions := by
    rw [h₃.transactions, h₁.transactions, h₄.transactions, h₂.transactions, AList.erase_erase]
    exact .refl Transaction.Alike.refl _
  queue := by rw [h₃.queue, h₁.queue, h₄.queue, h₂.queue, AList.erase_erase]
  trace := by
    rw [h₃.trace, h₁.trace, h₄.trace, h₂.trace, List.append_assoc, List.append_assoc]
    exact O.append (O.refl _) hO

end Aborting

/-- **The aborts of two live transactions may be swapped.** -/
theorem abortTransaction_comm (hne : T ≠ T') (hT : T ∈ σ.transactions) (hT' : T' ∈ σ.transactions)
    (hO : O.Same [.aborted T, .aborted T'] [.aborted T', .aborted T]) :
    Agree (Alike O) (σ.abortTransaction o T >>= fun σ => σ.abortTransaction o T')
      (σ.abortTransaction o T' >>= fun σ => σ.abortTransaction o T) := by
  obtain ⟨t, ht⟩ := Dict.exists_lookup hT
  obtain ⟨t', ht'⟩ := Dict.exists_lookup hT'
  obtain ⟨σ₁, e₁, h₁⟩ := exists_aborting (o := o) ht
  obtain ⟨σ₂, e₂, h₂⟩ := exists_aborting (o := o) ht'
  obtain ⟨σ₃, e₃, h₃⟩ := exists_aborting (o := o) ((h₁.lookup (Ne.symm hne)).trans ht')
  obtain ⟨σ₄, e₄, h₄⟩ := exists_aborting (o := o) ((h₂.lookup hne).trans ht)
  rw [e₁, e₂, ok_bind, ok_bind, e₃, e₄]
  exact .ok (h₁.swap hne h₃ h₂ h₄ hO)

end State

end RepCRec
