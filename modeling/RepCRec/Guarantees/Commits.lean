import RepCRec.Engine.Progress
import RepCRec.Guarantees.Ghosts

/-!
The committed store changes only by successful commits. The end of a live transaction stores all
its pending writes or none of them, and leaves the pending writes, the locks and the blocked
requests of the other transactions as they are; nothing else touches the data of a copy
(`commits_atomic`).
-/

namespace RepCRec

open Container (IterOrder bind_eq_ok pure_eq_ok ok_bind assign)

namespace State

variable {σ σ' σ₁ : State} {o : IterOrder} {r : Request} {T : TranId} {t : Transaction}
  {ts : Timestamp} {b : Bool}

/-- All copies have the same value and the same versions as before. -/
structure SameStore (σ σ' : State) : Prop where
  value : ∀ s v, (σ'.getVariable s v).value = (σ.getVariable s v).value
  versions : ∀ s v, (σ'.getVariable s v).versions = (σ.getVariable s v).versions

/-- The copy is as before. -/
structure SameCopy (σ σ' : State) (s : SiteId) (v : VarId) : Prop where
  value : (σ'.getVariable s v).value = (σ.getVariable s v).value
  versions : (σ'.getVariable s v).versions = (σ.getVariable s v).versions
  readable : σ'.isReadAvailable s v = σ.isReadAvailable s v

/-- The value `x` is the current one of the copy and its version at `ts`, and the copy is
readable. -/
structure StoredCopy (x : Value) (ts : Timestamp) (σ σ' : State) (s : SiteId) (v : VarId) :
    Prop where
  value : (σ'.getVariable s v).value = x
  versions : (σ'.getVariable s v).versions = assign ts x (σ.getVariable s v).versions
  readable : σ'.isReadAvailable s v = true

/-- The transaction is gone with its locks, and the others are not touched. -/
structure EndsAlone (T : TranId) (σ σ' : State) : Prop where
  dead : T ∉ σ'.transactions
  unlocked : ∀ s v, ¬σ'.Owns T s v
  live : ∀ T', T' ≠ T → (T' ∈ σ'.transactions ↔ T' ∈ σ.transactions)
  pending : ∀ T', T' ≠ T → ∀ s v, σ'.pending T' s v = σ.pending T' s v
  excl : ∀ T', T' ≠ T → ∀ s v, (σ'.getVariable s v).exclusiveLockOwner = some T' ↔
    (σ.getVariable s v).exclusiveLockOwner = some T'
  shared : ∀ T', T' ≠ T → ∀ s v, T' ∈ (σ'.getVariable s v).sharedLockOwners ↔
    T' ∈ (σ.getVariable s v).sharedLockOwners
  blocked : ∀ T', T' ≠ T →
    σ'.blockedTransactionsQueue.lookup T' = σ.blockedTransactionsQueue.lookup T'

lemma Quiet.sameStore (h : Quiet σ σ') : SameStore σ σ' := ⟨h.value, h.versions⟩

/-- Only the end of a transaction stores. -/
lemma Outcome.sameStore {es : List Event} (h : Outcome o σ r es σ')
    (hr : ∀ ts T, r ≠ .finish ts T) : SameStore σ σ' := by
  have hnil : ∀ s v, installsAt es s v = [] := installsAt_of_ne fun T s v x ts hmem =>
    hr ts T (h.installs_mem hmem).1
  constructor
  all_goals intro s v; have hst := h.stored s v; rw [hnil] at hst
  · exact hst.value
  · exact hst.versions

/-- What the end of a transaction does after the commit has been tried. -/
lemma finish_of_commit (hc : σ.commit o T ts = .ok (b, σ₁))
    (h : σ.exec o (.finish ts T) = .ok σ') :
    (b = true ∧ ∃ σ₂, (σ₁.releaseLocks o T).evictTransaction T = .ok σ₂ ∧
      σ' = σ₂.emit (.committed T)) ∨ (b = false ∧ σ' = σ₁.emit (.commitFailed T)) := by
  rw [exec, execFinish, hc] at h
  cases b with
  | true =>
      rw [ok_bind] at h
      dsimp only at h
      rw [if_pos rfl, bind_eq_ok] at h
      obtain ⟨σ₂, h2, h3⟩ := h
      exact Or.inl ⟨rfl, σ₂, h2, (pure_eq_ok.mp h3).symm⟩
  | false =>
      rw [ok_bind] at h
      dsimp only at h
      rw [if_neg Bool.false_ne_true] at h
      exact Or.inr ⟨rfl, (pure_eq_ok.mp h).symm⟩

/-- Beside its stores the end of a transaction only takes its locks and pending writes away. -/
lemma Good.endsAlone (hg : σ.Good) (h : σ.exec o (.finish ts T) = .ok σ') : EndsAlone T σ σ' := by
  obtain ⟨es, hout⟩ := exec_outcome h
  obtain ⟨hends, c, hv, hx, hs, hp⟩ : (.committed T ∈ es ∨ .aborted T ∈ es) ∧
      ∃ c : AvailableCopies.Config SiteId VarId TranId Value, σ'.view = c.finish T ∧
        c.excl = σ.view.excl ∧ c.shared = σ.view.shared ∧ c.pending = σ.view.pending := by
    cases hout with
    | unavailable ha => cases ha
    | waitsForLock ha => cases ha
    | @commits _ _ _ σ₁ ht _ hend =>
        refine ⟨Or.inl (by simp), σ.view.install T (committed σ₁.trace), ?_, rfl, rfl, rfl⟩
        exact (view_emit σ₁ fun _ => rfl).trans (view_commits hg ht hend).1
    | @commitFails _ _ _ σ₁ _ _ hab =>
        refine ⟨Or.inr (by simp), σ.view, ?_, rfl, rfl, rfl⟩
        exact (view_emit σ₁ fun _ => rfl).trans
          (view_abortTransaction hg.wf hg.onCopies hab).1
  have hlive := fun T' => hout.mem_transactions (T := T')
  have hexcl : ∀ T' s v, σ'.view.excl T' s v ↔ σ.view.excl T' s v ∧ T' ≠ T := fun T' s v => by
    rw [hv, ← hx]
    rfl
  have hshared : ∀ T' s v, σ'.view.shared T' s v ↔ σ.view.shared T' s v ∧ T' ≠ T :=
    fun T' s v => by
      rw [hv, ← hs]
      rfl
  have hother : ∀ T', T' ≠ T → .committed T' ∉ es ∧ .aborted T' ∉ es := by
    refine fun T' hne => ⟨fun hc => ?_, fun hab => ?_⟩
    · obtain ⟨ts', heq⟩ := hout.committed_mem hc
      cases heq
      exact hne rfl
    · rcases hout.aborted_mem hab with ⟨_, _, heq⟩ | ⟨_, heq⟩ | ⟨_, _, _, heq, -⟩ |
        ⟨_, _, _, heq, -⟩
      · cases heq
      · cases heq
        exact hne rfl
      · cases heq
      · cases heq
  exact {
    dead := fun hT => hends.elim ((hlive T).mp hT).2.1 ((hlive T).mp hT).2.2
    unlocked := fun s v ho => ho.elim (fun ho => ((hexcl T s v).mp ho).2 rfl)
      fun ho => ((hshared T s v).mp ho).2 rfl
    live := fun T' hne => by
      rw [hlive]
      refine ⟨fun h => h.1.resolve_right ?_, fun h => ⟨Or.inl h, hother T' hne⟩⟩
      rintro ⟨b, hb⟩
      obtain ⟨_, heq⟩ := hout.created_mem hb
      cases heq
    pending := fun T' hne s v => by
      refine (congrFun (congrFun (congrFun
        (congrArg AvailableCopies.Config.pending hv) T') s) v).trans ((if_neg hne).trans ?_)
      exact congrFun (congrFun (congrFun hp T') s) v
    excl := fun T' hne s v => (hexcl T' s v).trans (and_iff_left hne)
    shared := fun T' hne s v => (hshared T' s v).trans (and_iff_left hne)
    blocked := fun T' hne => by
      rw [hout.lookup_queue, queueAfter_of_ne (hother T' hne).2]
      intro hw
      have hrw := (hout.waits hw).2.1
      cases hrw }

/-- The end of a transaction stores nothing, or the pending writes of the transaction. -/
lemma stored_of_finish (ht : σ.transactions.lookup T = some t)
    (hc : σ.commit o T ts = .ok (b, σ₁)) (h : σ.exec o (.finish ts T) = .ok σ') (s : SiteId)
    (v : VarId) : (b = false → SameCopy σ σ' s v) ∧
      (b = true → (∀ x, t.writeRecords.get? s v = some x → StoredCopy x ts σ σ' s v) ∧
        (t.writeRecords.get? s v = none → SameCopy σ σ' s v)) := by
  obtain ⟨t', ht', hcases⟩ := commit_cases hc
  obtain rfl : t = t' := Option.some.inj (ht.symm.trans ht')
  rcases hcases with ⟨rfl, hok, rfl⟩ | ⟨rfl, hno, hab⟩
  · refine ⟨fun h => absurd h (by decide), fun _ => ?_⟩
    rcases finish_of_commit hc h with ⟨-, σ₂, h2, rfl⟩ | ⟨hf, -⟩
    · have hst := (Outcome.commits ht hok h2).stored s v
      have hend : installsAt [.committed T] s v = [] := rfl
      rw [installsAt_append, installsAt_stores, hend, List.append_nil] at hst
      have hread : (σ₂.emit (.committed T)).isReadAvailable s v = true ↔
          σ.isReadAvailable s v = true ∨ ∃ x, t.writeRecords.get? s v = some x := by
        rw [isReadAvailable_emit, (gone_releaseLocks h2).1.readable, installAll_eq,
          isReadAvailable_foldl_installCopy]
        simp only [mem_stores]
      refine ⟨fun x hx => ?_, fun hx => ?_⟩
      · rw [hx] at hst
        exact ⟨hst.value, hst.versions, hread.mpr (Or.inr ⟨x, hx⟩)⟩
      · rw [hx] at hst hread
        refine ⟨hst.value, hst.versions, Bool.eq_iff_iff.mpr (hread.trans (or_iff_left ?_))⟩
        rintro ⟨x, hx⟩
        cases hx
    · cases hf
  · refine ⟨fun _ => ?_, fun h => absurd h (by decide)⟩
    rcases finish_of_commit hc h with ⟨hf, -⟩ | ⟨-, rfl⟩
    · cases hf
    · have hg := (gone_abortTransaction hab).1
      exact ⟨hg.value s v, hg.versions s v, hg.readable s v⟩

end State

section Runs

variable {l : List Feed} {σ : State}

/-- **Commits are all or nothing.** The end of a live transaction tries the commit: when it fails no
copy changes, and when it succeeds exactly the copies with a pending write of the transaction do.
The transaction is gone then, and nothing of the others is touched. Every other request, every lock
assignment and every abort leaves the store as it is. -/
theorem commits_atomic (ha : Admissible l) (hr : Reaches l σ ∨ ∃ r, CalledDuring l r σ) :
    (∀ o ts T t, σ.transactions.lookup T = some t → ∃ b σ₁ σ', σ.commit o T ts = .ok (b, σ₁) ∧
      σ.exec o (.finish ts T) = .ok σ' ∧ State.EndsAlone T σ σ' ∧
      (b = false → ∀ s v, State.SameCopy σ σ' s v) ∧
      (b = true → ∀ s v,
        (∀ x, t.writeRecords.get? s v = some x → State.StoredCopy x ts σ σ' s v) ∧
        (t.writeRecords.get? s v = none → State.SameCopy σ σ' s v))) ∧
    (∀ o r σ', (∀ ts T, r ≠ .finish ts T) → σ.exec o r = .ok σ' → State.SameStore σ σ') ∧
    (∀ o T L v σ', σ.assignWriteLock o T L v = .ok σ' ∨ σ.assignShareLock o T L v = .ok σ' →
      State.SameStore σ σ') ∧
    ∀ o T σ', σ.abortTransaction o T = .ok σ' → State.SameStore σ σ' := by
  have hg : σ.Good := hr.elim (good_reaches ha) fun ⟨_, hc⟩ => good_called ha hc
  refine ⟨fun o ts T t ht => ?_, fun o r σ' hne hx => ?_, fun o T L v σ' hx => ?_,
    fun o T σ' hx => ?_⟩
  · have hT : T ∈ σ.transactions := Dict.mem_of_lookup ht
    obtain ⟨b, σ₁, hc⟩ : ∃ b σ₁, σ.commit o T ts = .ok (b, σ₁) := State.exists_commit hT
    obtain ⟨σ', hx⟩ : ∃ σ', σ.exec o (.finish ts T) = .ok σ' := State.exists_exec_finish hT
    have hst := State.stored_of_finish ht hc hx
    exact ⟨b, σ₁, σ', hc, hx, hg.endsAlone hx, fun hb s v => (hst s v).1 hb,
      fun hb s v => (hst s v).2 hb⟩
  · obtain ⟨es, hout⟩ := State.exec_outcome hx
    exact hout.sameStore hne
  · exact hx.elim (fun hx => (State.Quiet.assignWriteLock hx).sameStore)
      fun hx => (State.Quiet.assignShareLock hx).sameStore
  · have hgone := (State.gone_abortTransaction hx).1
    exact ⟨hgone.value, hgone.versions⟩

theorem commits_atomic_writeRun : ∃ σ t σ', Reaches (writeRun.take 2) σ ∧
    σ.transactions.lookup 1 = some t ∧ t.writeRecords.get? x1.home x1 = some 5 ∧
      σ.exec IterOrder.stored (.finish 2 1) = .ok σ' ∧
      State.StoredCopy 5 2 σ σ' x1.home x1 ∧ State.SameCopy σ σ' s1 x2 := by
  obtain ⟨σ, hr, hf⟩ := exists_ok_of_eval (x := run (writeRun.take 2))
    (f := fun σ => ((σ.transactions.lookup 1).map fun t =>
        (t.writeRecords.get? x1.home x1, t.writeRecords.get? s1 x2),
      (σ.commit IterOrder.stored 1 2).toOption.map Prod.fst))
    (a := (some (some 5, none), some true)) (by decide +kernel)
  rw [Prod.mk.injEq] at hf
  obtain ⟨t, ht, hrec⟩ := Option.map_eq_some_iff.mp hf.1
  rw [Prod.mk.injEq] at hrec
  obtain ⟨p, hp, hb⟩ := exists_ok_of_eval hf.2
  obtain ⟨b, σ₁, σ', hc, hx, -, -, htrue⟩ :=
    (commits_atomic (by decide +kernel) (Or.inl (.run hr))).1 IterOrder.stored 2 1 t ht
  rw [hp] at hc
  cases hc
  exact ⟨σ, t, σ', .run hr, ht, hrec.1, hx, (htrue hb x1.home x1).1 5 hrec.1,
    (htrue hb s1 x2).2 hrec.2⟩

end Runs

end RepCRec
