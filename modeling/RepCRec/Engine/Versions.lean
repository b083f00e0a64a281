import RepCRec.Container.Versions
import RepCRec.Engine.Accesses

/-!
What the execution of a request does to the value and the versions of each copy: the stores
among the entries that it adds to the trace, in their order (`Outcome.stored`).
-/

namespace RepCRec

open Container (IterOrder assignAll assignAll_append)

/-- A store into the copy of `v` at `s`: its timestamp and its value. -/
def Event.install? (s : SiteId) (v : VarId) : Event → Option (Timestamp × Value)
  | .installs _ s' v' x ts => if s' = s ∧ v' = v then some (ts, x) else none
  | _ => none

/-- The stores into the copy of `v` at `s`, in the order in which they were executed. -/
def installsAt (trace : List Event) (s : SiteId) (v : VarId) : List (Timestamp × Value) :=
  trace.filterMap (Event.install? s v)

@[simp] lemma installsAt_append (l₁ l₂ : List Event) (s : SiteId) (v : VarId) :
    installsAt (l₁ ++ l₂) s v = installsAt l₁ s v ++ installsAt l₂ s v := by simp [installsAt]

/-- The stores at a copy, as the log has them. -/
lemma mem_installsAt {trace : List Event} {s : SiteId} {v : VarId} {p : Timestamp × Value} :
    p ∈ installsAt trace s v ↔ ∃ T, .installs T s v p.2 p.1 ∈ trace := by
  rw [installsAt, List.mem_filterMap]
  constructor
  · rintro ⟨e, he, hp⟩
    cases e with
    | installs T s' v' x ts =>
        rw [Event.install?] at hp
        split_ifs at hp with hsv
        obtain ⟨rfl, rfl⟩ := hsv
        cases hp
        exact ⟨T, he⟩
    | _ => cases hp
  · rintro ⟨T, he⟩
    exact ⟨_, he, by simp [Event.install?]⟩

lemma installsAt_of_ne {trace : List Event} (h : ∀ T s v x ts, .installs T s v x ts ∉ trace)
    (s : SiteId) (v : VarId) : installsAt trace s v = [] := by
  refine List.eq_nil_iff_forall_not_mem.mpr fun p hp => ?_
  obtain ⟨T, hT⟩ := mem_installsAt.mp hp
  exact h T s v _ _ hT

namespace Variable

/-- The variable `y` is `x` after the stores `l`. -/
structure Stores (x : Variable) (l : List (Timestamp × Value)) (y : Variable) : Prop where
  versions : y.versions = assignAll x.versions l
  value : y.value = (l.getLast?.map Prod.snd).getD x.value

namespace Stores

variable {x y z : Variable} {l l' : List (Timestamp × Value)}

lemma of_eq (hver : y.versions = x.versions) (hval : y.value = x.value) : Stores x [] y :=
  ⟨hver, hval⟩

lemma trans (h : Stores x l y) (h' : Stores y l' z) : Stores x (l ++ l') z where
  versions := by rw [h'.versions, h.versions, assignAll_append]
  value := by
    rw [h'.value, h.value, List.getLast?_append]
    cases l'.getLast? <;> rfl

/-- A store at the copy. -/
lemma setValue (x : Variable) (val : Value) (ts : Timestamp) :
    Stores x [(ts, val)] (x.setValue val ts) := ⟨rfl, rfl⟩

end Stores

end Variable

namespace State

variable {σ σ' : State} {o : IterOrder} {r : Request} {es : List Event} {T : TranId} {s : SiteId}
  {v : VarId}

/-- Nothing is stored in a quiet step. -/
lemma Quiet.stores (h : Quiet σ σ') (s : SiteId) (v : VarId) :
    (σ.getVariable s v).Stores [] (σ'.getVariable s v) := .of_eq (h.versions s v) (h.value s v)

/-- Nothing is stored when a transaction is removed. -/
lemma Gone.stores (h : Gone T σ σ') (s : SiteId) (v : VarId) :
    (σ.getVariable s v).Stores [] (σ'.getVariable s v) := .of_eq (h.versions s v) (h.value s v)

lemma stores_of_execFail {s' : SiteId} (h : σ.execFail o s' = .ok σ') :
    (σ.getVariable s v).Stores [] (σ'.getVariable s v) := by
  refine execFail_induction
    (P := fun τ => (σ.getVariable s v).Stores [] (τ.getVariable s v)) h ?_ ?_ ?_
  · have heq : (σ.modifySite s' Site.setUnavailable).getVariable s v = σ.getVariable s v :=
      getVariable_modifySite (f := Site.setUnavailable) (fun _ => rfl) s v
    exact .of_eq (by rw [heq]) (by rw [heq])
  · exact fun hσ ha => hσ.trans ((gone_abortTransaction ha).1.stores s v)
  · exact fun hσ => hσ

/-- The stores of a commit. -/
lemma stores_foldl_installCopy (T : TranId) (ts : Timestamp) (l : List (SiteId × VarId × Value))
    (σ : State) (s : SiteId) (v : VarId) : (σ.getVariable s v).Stores
      (installsAt (l.map (storeEvent T ts)) s v)
      ((l.foldl (installCopy T ts) σ).getVariable s v) := by
  induction l generalizing σ with
  | nil => exact .of_eq rfl rfl
  | cons p l ih =>
      have hp : (σ.getVariable s v).Stores (installsAt [storeEvent T ts p] s v)
          ((installCopy T ts σ p).getVariable s v) := by
        rw [getVariable_installCopy]
        by_cases hsv : p.1 = s ∧ p.2.1 = v
        · have hl : installsAt [storeEvent T ts p] s v = [(ts, p.2.2)] := by
            simp [installsAt, storeEvent, Event.install?, hsv]
          rw [hl, if_pos ⟨hsv.1.symm, hsv.2.symm⟩]
          exact .setValue _ _ _
        · have hl : installsAt [storeEvent T ts p] s v = [] := by
            simp [installsAt, storeEvent, Event.install?, hsv]
          rw [hl, if_neg fun h => hsv ⟨h.1.symm, h.2.symm⟩]
          exact .of_eq rfl rfl
      have htrans := hp.trans (ih (installCopy T ts σ p))
      rwa [← installsAt_append, List.singleton_append, ← List.map_cons] at htrans

/-- The stores of a commit into one copy: the write that is recorded for it, if there is one. -/
lemma installsAt_stores (T : TranId) (ts : Timestamp) (t : Transaction) (s : SiteId) (v : VarId) :
    installsAt ((stores o t).map (storeEvent T ts)) s v =
      ((t.writeRecords.get? s v).map fun x => (ts, x)).toList := by
  have hother : ∀ {l : List (SiteId × VarId × Value)}, (∀ x, (s, v, x) ∉ l) →
      installsAt (l.map (storeEvent T ts)) s v = [] := fun {l} hl => by
    rw [installsAt, List.filterMap_map, List.filterMap_eq_nil_iff]
    rintro ⟨s', v', x⟩ hp
    refine if_neg ?_
    rintro ⟨rfl, rfl⟩
    exact hl x hp
  cases hx : t.writeRecords.get? s v with
  | none =>
      refine hother fun x hp => ?_
      rw [mem_stores, hx] at hp
      cases hp
  | some x =>
      have hmem : (s, v, x) ∈ stores o t := mem_stores.mpr hx
      have hperm := ((List.perm_cons_erase hmem).map (storeEvent T ts)).filterMap
        (Event.install? s v)
      have hrest : installsAt (((stores o t).erase (s, v, x)).map (storeEvent T ts)) s v = [] := by
        refine hother fun y hy => ?_
        obtain ⟨hne, hy⟩ := (nodup_stores o t).mem_erase_iff.mp hy
        rw [mem_stores, hx] at hy
        cases hy
        exact hne rfl
      rw [List.map_cons, List.filterMap_cons] at hperm
      rw [installsAt] at hrest
      simp only [hrest, storeEvent, Event.install?, and_self, if_true] at hperm
      exact List.perm_singleton.mp hperm

/-- **The copies after a request**: the stores among its entries were made. -/
theorem Outcome.stored (h : Outcome o σ r es σ') (s : SiteId) (v : VarId) :
    (σ.getVariable s v).Stores (installsAt es s v) (σ'.getVariable s v) := by
  have hno : (∀ ts T, r ≠ .finish ts T) → installsAt es s v = [] := fun hne =>
    installsAt_of_ne (fun T s v x ts hmem => hne ts T (h.installs_mem hmem).1) s v
  have hq := (Quiet.refl σ).stores s v
  cases h with
  | dumped => exact hq
  | created => exact hq
  | failed h =>
      rw [hno (by simp)]
      exact stores_of_execFail h
  | @recovered ts s' =>
      have heq := (recovered_execRecover σ o s').variable_eq s v
      exact .of_eq (by rw [heq]) (by rw [heq])
  | unavailable | missingUnavailable | missingNothing => exact hq
  | waitsForLock => exact hq
  | waitsForSite _ _ h | missingWaits _ _ _ h =>
      rcases waitForSite_cases h with ⟨-, rfl⟩ | ⟨-, σ₁, h1, rfl⟩
      · exact hq
      · obtain ⟨t, -, rfl⟩ := modifyTransaction_eq_ok.mp h1
        exact hq
  | writeLocks _ h1 h2 =>
      exact ((Quiet.updateValuesAt h1).trans (Quiet.assignWriteLock h2)).stores s v
  | rewritesOdd _ _ h1 =>
      obtain ⟨t, -, rfl⟩ := modifyTransaction_eq_ok.mp h1
      exact hq
  | rewritesEven => exact hq
  | readsVersion _ _ _ _ _ h1 =>
      obtain ⟨t, -, rfl⟩ := modifyTransaction_eq_ok.mp h1
      exact hq
  | readAborts _ _ _ _ h | missingAborts _ _ _ h => exact (gone_abortTransaction h).1.stores s v
  | sharesOdd _ _ _ _ _ h1 h2 =>
      obtain ⟨t, -, rfl⟩ := modifyTransaction_eq_ok.mp h2
      exact (Quiet.assignShareLock h1).stores s v
  | @sharesEven ts T' w t σ₁ _ _ _ _ h1 =>
      rw [hno (by simp)]
      have hs := (Quiet.assignShareLock h1).stores s v
      rcases readFirst_cases σ T' w (o.visit (σ.tryAcquireWriteLock T' w).siteIdSet) with heq |
        ⟨s', -, heq⟩
      · rwa [heq] at hs
      · rwa [heq] at hs
  | @commits ts T' t σ₁ _ _ h =>
      have hs := stores_foldl_installCopy T' ts (stores o t) σ s v
      rw [← installAll_eq] at hs
      have hg := (gone_releaseLocks h).1.stores s v
      have hend : installsAt [.committed T'] s v = [] := rfl
      rw [installsAt_append, hend]
      exact hs.trans hg
  | @commitFails ts T' _ _ _ _ h =>
      have hend : installsAt [.aborted T', .commitFailed T'] s v = [] := rfl
      rw [hend]
      exact (gone_abortTransaction h).1.stores s v

end State

end RepCRec
