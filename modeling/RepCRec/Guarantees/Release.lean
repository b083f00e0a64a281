import RepCRec.Engine.Indexes
import RepCRec.Guarantees.Replication

/-!
What `release_locks` removes. The locks of the transaction and its own edges go, and the locks of
the others stay; but an edge to the transaction stays too, if its source has another target, since
the loop over the wait-for graph erases the transaction from copies of the sets. So the transaction
is removed completely, and nothing else, exactly when no other transaction waits for it and for
somebody else (`released_iff`), and a transaction that waits for two others is not freed by any
sequence of releases (`waitsFor_releaseAll`).
-/

namespace RepCRec

open Container (IterOrder)

namespace State

variable {o : IterOrder} {σ : State} {T T' : TranId} {s : SiteId} {v : VarId}

/-- The transaction `T` is removed from the locks, the lock table and the wait-for graph, and
nothing else is. -/
structure Released (T : TranId) (σ σ' : State) : Prop where
  free : ∀ s v, ¬σ'.Owns T s v
  table : T ∉ σ'.lockTable
  source : ∀ T', ¬σ'.WaitsFor T T'
  target : ∀ T', ¬σ'.WaitsFor T' T
  edges : ∀ T₁ T₂, T₁ ≠ T → T₂ ≠ T → (σ'.WaitsFor T₁ T₂ ↔ σ.WaitsFor T₁ T₂)
  excl : ∀ T', T' ≠ T → ∀ s v, (σ'.getVariable s v).exclusiveLockOwner = some T' ↔
    (σ.getVariable s v).exclusiveLockOwner = some T'
  shared : ∀ T', T' ≠ T → ∀ s v, T' ∈ (σ'.getVariable s v).sharedLockOwners ↔
    T' ∈ (σ.getVariable s v).sharedLockOwners
  waiters : ∀ T', (∀ X, σ.WaitsFor T' X → X = T) → σ'.isWaitingForLock T' = false

lemma isWaitingForLock_eq_false : σ.isWaitingForLock T = false ↔ ∀ X, ¬σ.WaitsFor T X := by
  rw [isWaitingForLock, Bool.not_eq_false', List.isEmpty_iff, List.eq_nil_iff_forall_not_mem]
  rfl

/-- The objects of an odd variable at the sites other than its home are not looked at. -/
lemma getVariable_releaseLocks (hs : s ∉ copies v) :
    (σ.releaseLocks o T).getVariable s v = σ.getVariable s v := by
  have hcopy : ∀ (σ : State) (w : VarId) (s' : SiteId), s' ∈ copies w →
      (σ.releaseCopy T w s').getVariable s v = σ.getVariable s v := by
    intro σ w s' hs'
    rw [releaseCopy, getVariable_modifyVariable, if_neg]
    rintro ⟨rfl, rfl⟩
    exact hs hs'
  have hvar : ∀ (σ : State) (w : VarId),
      (σ.releaseVariable T w).getVariable s v = σ.getVariable s v := by
    intro σ w
    rw [releaseVariable]
    split_ifs with hw
    · exact hcopy σ w w.home (home_mem_copies w)
    · have hev : w.isOdd = false := by simpa using hw
      exact Container.foldl_induction
        (P := fun σ₁ : State => σ₁.getVariable s v = σ.getVariable s v)
        (fun s' _ σ₁ h => (hcopy σ₁ w s' (mem_copies_of_even hev s')).trans h) rfl
  exact Container.foldl_induction (P := fun σ₁ : State => σ₁.getVariable s v = σ.getVariable s v)
    (fun w _ σ₁ h => (hvar σ₁ w).trans h) rfl

/-- The edges that are left, when the sets of targets have no element twice: those of the others,
without the edges from sets that had `T` alone. -/
lemma waitsFor_releaseLocks_iff (hn : ∀ T, (σ.waitsFor T).Nodup) {T₁ T₂ : TranId} :
    (σ.releaseLocks o T).WaitsFor T₁ T₂ ↔
      T₁ ≠ T ∧ σ.WaitsFor T₁ T₂ ∧ ∃ X, σ.WaitsFor T₁ X ∧ X ≠ T := by
  have hmem : (σ.waitsFor T₁).erase T = [] ↔ ∀ X, ¬(σ.WaitsFor T₁ X ∧ X ≠ T) := by
    rw [List.eq_nil_iff_forall_not_mem]
    refine forall_congr' fun X => not_congr ?_
    rw [(hn T₁).mem_erase_iff, and_comm]
    rfl
  rw [WaitsFor, waitsFor_releaseLocks]
  split_ifs with h
  · refine iff_of_false List.not_mem_nil ?_
    rintro ⟨hne, -, X, hX⟩
    exact hmem.mp (h.resolve_left hne) X hX
  · obtain ⟨hne, hnil⟩ := not_or.mp h
    rw [hmem, not_forall] at hnil
    obtain ⟨X, hX⟩ := hnil
    exact ⟨fun hw => ⟨hne, hw, X, not_not.mp hX⟩, fun hw => hw.2.1⟩

/-- **What `release_locks` removes.** When each locked variable is in the lock table entry of its
owner, and no set holds an element twice, `release_locks` removes `T` completely and nothing else if
and only if `T` owns locks on copies alone and no other transaction waits both for `T` and for
somebody else. -/
theorem released_iff (h : σ.Tabled) (hn : ∀ T, (σ.waitsFor T).Nodup) (o : IterOrder) (T : TranId) :
    Released T σ (σ.releaseLocks o T) ↔ (∀ s v, σ.Owns T s v → s ∈ copySites v) ∧
      ∀ T', T' ≠ T → σ.WaitsFor T' T → ∀ X, σ.WaitsFor T' X → X = T := by
  constructor
  · refine fun hr => ⟨fun s v ho => ?_, fun T' hne hT X hX => ?_⟩
    · by_contra hs
      refine hr.free s v ?_
      rw [Owns, getVariable_releaseLocks fun hc => hs (mem_copySites.mpr hc)]
      exact ho
    · by_contra hX'
      exact hr.target T' ((waitsFor_releaseLocks_iff hn).mpr ⟨hne, hT, X, hX, hX'⟩)
  · rintro ⟨hc, hw⟩
    obtain ⟨hu, hfree⟩ := releaseLocks_spec h o T fun {s v} ho => mem_copySites.mp (hc s v ho)
    refine ⟨fun s v ho => ho.elim (hfree s v).1 (hfree s v).2, fun hT => ?_, fun T' hT => ?_,
      fun T' hT => ?_, fun T₁ T₂ h1 h2 => ?_, fun T' hne s v => ?_, fun T' hne s v => ?_,
      fun T' hT => ?_⟩
    · exact (AList.mem_erase.mp hT).1 rfl
    · exact ((waitsFor_releaseLocks_iff hn).mp hT).1 rfl
    · obtain ⟨hne, hT, X, hX, hX'⟩ := (waitsFor_releaseLocks_iff hn).mp hT
      exact hX' (hw T' hne hT X hX)
    · rw [waitsFor_releaseLocks_iff hn]
      exact ⟨fun hw => hw.2.1, fun hw => ⟨h1, hw, T₂, hw, h2⟩⟩
    · exact ⟨(hu.var s v).excl T', (hu.var s v).excl_other T' hne⟩
    · exact ⟨(hu.var s v).shared T', (hu.var s v).shared_other T' hne⟩
    · refine isWaitingForLock_eq_false.mpr fun X hX => ?_
      obtain ⟨-, -, X', hX', hne⟩ := (waitsFor_releaseLocks_iff hn).mp hX
      exact hne (hT X' hX')

/-- The second transaction waits for the first one, and the fourth one waits for the third one. -/
def lockingRun : List Feed :=
  inOrder Schedule.stored [.begin 1, .begin 2, .begin 3, .begin 4, .write 1 2 5, .write 3 4 7,
    .write 2 2 6, .write 4 4 8]

theorem released_iff_lockingRun : ∃ σ, run lockingRun = .ok σ ∧ 1 ∈ σ.lockTable ∧
    (σ.getVariable s1 x2).exclusiveLockOwner = some 1 ∧ σ.waitsFor 2 = [1] ∧
    σ.waitsFor 4 = [3] ∧ Released 1 σ (σ.releaseLocks IterOrder.stored 1) := by
  obtain ⟨σ, hr, hf⟩ := exists_ok_of_eval (x := run lockingRun)
    (f := fun σ => (decide (1 ∈ σ.lockTable), (σ.getVariable s1 x2).exclusiveLockOwner,
      σ.waitsFor 2, σ.waitsFor 4, decide (∀ T ∈ σ.waitForGraph.keys,
        (σ.waitsFor T).Nodup ∧ (1 ∈ σ.waitsFor T → σ.waitsFor T = [1]))))
    (a := (true, some 1, [1], [3], true)) (by decide +kernel)
  simp only [Prod.mk.injEq, decide_eq_true_iff] at hf
  obtain ⟨htable, hown, h2, h4, hkeys⟩ := hf
  have hgraph : ∀ T, (σ.waitsFor T).Nodup ∧ (1 ∈ σ.waitsFor T → σ.waitsFor T = [1]) := by
    intro T
    by_cases hT : T ∈ σ.waitForGraph
    · exact hkeys T hT
    · rw [waitsFor, AList.lookup_eq_none.mpr hT]
      simp
  have hg := good_reaches (l := lockingRun) (by decide +kernel) (.run hr)
  refine ⟨σ, hr, htable, hown, h2, h4, ?_⟩
  refine (released_iff hg.wf.tabled (fun T => (hgraph T).1) IterOrder.stored 1).mpr
    ⟨fun s v ho => mem_copySites.mpr (hg.onCopies ho), fun T' _ hT X hX => ?_⟩
  rw [WaitsFor, (hgraph T').2 hT] at hX
  exact List.mem_singleton.mp hX

/-- Transaction 3 waits for 1 and for 2. -/
def twoTargets : State := State.initial.assignWaitForGraph IterOrder.stored 3 [1, 2]

lemma tabled_twoTargets : twoTargets.Tabled where
  owned ho := by
    simp [Owns, twoTargets, assignWaitForGraph, getVariable, State.initial, Site.initial,
      Variable.initial] at ho
  nodup s v := by simp [twoTargets, assignWaitForGraph, getVariable, State.initial, Site.initial,
    Variable.initial]

lemma nodup_twoTargets (T : TranId) : (twoTargets.waitsFor T).Nodup :=
  nodup_assignWaitForGraph (fun T => by simp [State.initial, waitsFor]) _ T

/-- **An edge is left behind**: 3 still waits for 1 after the locks of 1 are released. -/
theorem edge_left_behind : twoTargets.Tabled ∧ (∀ T, (twoTargets.waitsFor T).Nodup) ∧
    ∀ o, ¬Released 1 twoTargets (twoTargets.releaseLocks o 1) := by
  refine ⟨tabled_twoTargets, nodup_twoTargets, fun o hr => hr.target 3 ?_⟩
  have hw : ∀ X ∈ [1, 2], twoTargets.WaitsFor 3 X := fun X hX =>
    mem_assignWaitForGraph.mpr (Or.inr ⟨rfl, hX⟩)
  exact (waitsFor_releaseLocks_iff nodup_twoTargets).mpr
    ⟨by decide, hw 1 (by simp), 2, hw 2 (by simp), by decide⟩

/-! ### Sequences of releases -/

/-- The locks of the transactions are released, one after the other. -/
def releaseAll (o : IterOrder) (Ts : List TranId) (σ : State) : State :=
  Ts.foldl (fun σ T => σ.releaseLocks o T) σ

/-- **A waiter that waits for two others is not freed** by any sequence of releases of others. -/
theorem waitsFor_releaseAll (hn : ∀ T, (σ.waitsFor T).Nodup) {Ts : List TranId} (hT : T ∉ Ts)
    {X Y : TranId} (hne : X ≠ Y) (hX : σ.WaitsFor T X) (hY : σ.WaitsFor T Y) :
    (σ.releaseAll o Ts).waitsFor T = σ.waitsFor T := by
  induction Ts generalizing σ with
  | nil => rfl
  | cons T' Ts ih =>
      have hT' : T ≠ T' := fun heq => hT (heq ▸ List.mem_cons_self)
      have hkeep : (σ.releaseLocks o T').waitsFor T = σ.waitsFor T := by
        rw [waitsFor_releaseLocks, if_neg]
        refine not_or.mpr ⟨hT', fun hnil => ?_⟩
        -- one of the two is not the transaction that is released
        rcases ne_or_eq X T' with hXT | rfl
        · exact List.ne_nil_of_mem ((List.mem_erase_of_ne hXT).mpr hX) hnil
        · exact List.ne_nil_of_mem ((List.mem_erase_of_ne hne.symm).mpr hY) hnil
      have hnodup : ∀ T₁, ((σ.releaseLocks o T').waitsFor T₁).Nodup := by
        intro T₁
        rw [waitsFor_releaseLocks]
        split_ifs
        · exact List.nodup_nil
        · exact hn T₁
      refine (ih hnodup (fun h => hT (List.mem_cons_of_mem T' h)) ?_ ?_).trans hkeep
      · rw [WaitsFor, hkeep]
        exact hX
      · rw [WaitsFor, hkeep]
        exact hY

end State

end RepCRec
