import RepCRec.Refinement.Runs

/-!
What available copies gives the engine, in every state that a run reaches without a fault:

* `isolated`: a granted lock keeps the commits of other transactions away until its transaction
  ends, unless all sites where it was granted have failed.
* `readable_copies_current`: the readable copies of an even variable hold the value that was
  committed last.
* `pending_writes_exclusive`: the recorded writes of the live transactions are exactly the
  exclusive locks, and one transaction at a time writes a variable.
-/

namespace RepCRec

open AvailableCopies (Steps)

section Isolation

variable {l : List Feed} {σ : State}

/-- The trace entry grants `T` a lock on the copies of `v` at the sites `L`. -/
def Event.Locks (e : Event) (T : TranId) (v : VarId) (L : List SiteId) : Prop :=
  e = .sharedLock T v L ∨ ∃ x, e = .writeLock T v L x

/-- A lock that is granted at some site is a grant of the protocol. -/
lemma Event.Locks.action {e : Event} {T : TranId} {v : VarId} {L : List SiteId}
    (he : e.Locks T v L) {s : SiteId} (hs : s ∈ L) :
    ∃ a, e.action? = some a ∧ a.Grants T v {s | s ∈ L} := by
  rcases he with rfl | ⟨x, rfl⟩
  · exact ⟨_, rfl, Or.inl rfl⟩
  · refine ⟨_, ?_, Or.inr ⟨x, rfl⟩⟩
    rw [Event.action?, if_neg (List.ne_nil_of_mem hs)]

/-- An entry that stands for a failure is the failure. -/
lemma Event.eq_failed_of_action {e : Event} {s : SiteId} (h : e.action? = some (.fail s)) :
    e = .failed s := by
  cases e <;> simp_all [Event.action?]

/-- An entry that stands for the end of a transaction is its commit or its abort. -/
lemma Event.eq_end_of_action {e : Event} {T : TranId}
    {a : AvailableCopies.Action SiteId VarId TranId Value} (h : e.action? = some a)
    (ha : a.Ends T) : e = .committed T ∨ e = .aborted T := by
  rcases ha with rfl | rfl <;> cases e <;> simp_all [Event.action?]

/-- **Isolation.** Between the grant of a lock on `v` to `T` and the end of `T`, a commit stores
a value of `v` only if it is the commit of `T`, unless all sites where the lock was granted have
failed since. -/
theorem isolated (ha : Admissible l) (hr : Reaches l σ) {tr₁ tr₂ tr₃ : List Event} {e : Event}
    {T T' : TranId} {v : VarId} {L : List SiteId} {s s' : SiteId} {x : Value} {ts : Timestamp}
    (htr : σ.trace = tr₁ ++ e :: tr₂ ++ .installs T' s' v x ts :: tr₃) (he : e.Locks T v L)
    (hend : .committed T ∉ tr₂ ∧ .aborted T ∉ tr₂) (hs : s ∈ L) (hup : .failed s ∉ tr₂) :
    T' = T := by
  obtain ⟨c, hc, hp⟩ := (reached_reaches ha hr).simulation.stores htr
  obtain ⟨a, hact, hgr⟩ := he.action hs
  have hacts : actions (tr₁ ++ e :: tr₂) = actions tr₁ ++ a :: actions tr₂ := by
    rw [actions_append]
    exact congrArg _ (List.filterMap_cons_some hact)
  rw [hacts] at hc
  by_contra hne
  have hfail := AvailableCopies.isolation State.good_initial.inv hc hgr ?_
    (by rw [hp]; exact Option.some_ne_none x) hne s hs
  · obtain ⟨e', he', hact'⟩ := List.mem_filterMap.mp hfail
    exact hup (Event.eq_failed_of_action hact' ▸ he')
  · intro b hb hends
    obtain ⟨e', he', hact'⟩ := List.mem_filterMap.mp hb
    rcases Event.eq_end_of_action hact' hends with rfl | rfl
    · exact hend.1 he'
    · exact hend.2 he'

/-- The run of a transaction that writes an odd variable and commits. -/
def writeRun : List Feed :=
  inOrder Schedule.stored [.begin 1, .write 1 1 5, .finish 1]

def x1 : VarId := ⟨1, by decide, by decide⟩

def x2 : VarId := ⟨2, by decide, by decide⟩

def x4 : VarId := ⟨4, by decide, by decide⟩

def s1 : SiteId := ⟨1, by decide, by decide⟩

def s10 : SiteId := ⟨10, by decide, by decide⟩

theorem isolated_writeRun : ∃ σ T' tr, run writeRun = .ok σ ∧
    σ.trace = [.created 1 false] ++ .writeLock 1 x1 [x1.home] 5 :: [] ++
      .installs T' x1.home x1 5 2 :: tr ∧ T' = 1 := by
  obtain ⟨σ, hr, htr⟩ := exists_ok_of_eval (x := run writeRun) (f := State.trace)
    (a := [.created 1 false] ++ .writeLock 1 x1 [x1.home] 5 :: [] ++
      .installs 1 x1.home x1 5 2 :: [.committed 1]) (by decide +kernel)
  refine ⟨σ, 1, [.committed 1], hr, htr, ?_⟩
  exact isolated (s := x1.home) (by decide +kernel) (.run hr) htr (Or.inr ⟨5, rfl⟩)
    (by simp) (by simp) (by simp)

end Isolation

section States

variable {l : List Feed} {σ : State}

/-- **One copy.** A readable copy of a replicated variable is at a site that is up, and holds the
value that was committed last. -/
theorem readable_copies_current (ha : Admissible l) (hr : Reaches l σ) {v : VarId}
    (hv : v.isOdd = false) {s : SiteId} (hs : σ.isReadAvailable s v = true) :
    σ.isWriteAvailable s = true ∧ (σ.getVariable s v).value = committed σ.trace v := by
  have hi := (good_reaches ha hr).inv
  exact ⟨hi.readable_up hs, hi.one_copy (mem_copies_of_even hv s) hs⟩

/-- The run of a transaction that writes a replicated variable and commits. -/
def replicatedRun : List Feed :=
  inOrder Schedule.stored [.begin 1, .write 1 2 5, .finish 1]

theorem readable_copies_current_replicatedRun : ∃ σ, run replicatedRun = .ok σ ∧
    (σ.getVariable x2.home x2).value = committed σ.trace x2 := by
  obtain ⟨σ, hr, hread⟩ := exists_ok_of_eval (x := run replicatedRun)
    (f := fun σ => σ.isReadAvailable x2.home x2) (a := true) (by decide +kernel)
  exact ⟨σ, hr, (readable_copies_current (by decide +kernel) (.run hr) (by decide) hread).2⟩

/-- The recorded writes of the live transactions are the exclusive locks, at sites that are up,
and no two transactions write a variable at the same time. -/
structure WritersExclusive (σ : State) : Prop where
  record_locked : ∀ {T t s v x}, σ.transactions.lookup T = some t →
    t.writeRecords.get? s v = some x →
    σ.isWriteAvailable s = true ∧ (σ.getVariable s v).exclusiveLockOwner = some T
  lock_recorded : ∀ {T s v}, (σ.getVariable s v).exclusiveLockOwner = some T →
    ∃ t x, σ.transactions.lookup T = some t ∧ t.writeRecords.get? s v = some x
  one_writer : ∀ {T T' s s' v}, (σ.getVariable s v).exclusiveLockOwner = some T →
    (σ.getVariable s' v).exclusiveLockOwner = some T' → T = T'

lemma State.Good.writersExclusive (h : σ.Good) : WritersExclusive σ where
  record_locked := by
    intro T t s v x ht hx
    have hp : σ.view.pending T s v = some x := by
      simpa [State.view, State.pending, ht] using hx
    have hex := h.inv.excl_of_pending hp
    exact ⟨h.inv.excl_up hex, hex⟩
  lock_recorded := by
    intro T s v hex
    obtain ⟨x, hx⟩ := Option.ne_none_iff_exists'.mp (h.inv.pending_iff.mpr hex)
    obtain ⟨t, ht, hx⟩ := Option.bind_eq_some_iff.mp hx
    exact ⟨t, x, ht, hx⟩
  one_writer hx hx' := h.inv.writer_excl (Or.inl hx) hx'

/-- The sites that a live transaction has recorded as written to are up. -/
lemma State.Good.recorded_up (hg : σ.Good) {T : TranId} {t : Transaction} {s : SiteId}
    (ht : σ.transactions.lookup T = some t) (hs : s ∈ t.writeAccessedSites) :
    σ.isWriteAvailable s = true := by
  rw [(hg.wf.recorded ht).same] at hs
  obtain ⟨v, x, hx⟩ := (hg.wf.recorded ht).proper s hs
  exact (hg.writersExclusive.record_locked ht hx).1

/-- **Pending writes are exclusive locks**, in every state that a run reaches; so the check of
the sites written to never fails when a transaction ends. -/
theorem pending_writes_exclusive (ha : Admissible l) :
    (∀ σ, Reaches l σ → WritersExclusive σ) ∧
    ∀ ts T τ t, CalledDuring l (.finish ts T) τ → τ.transactions.lookup T = some t →
      ∀ s ∈ t.writeAccessedSites, τ.isWriteAvailable s = true := by
  refine ⟨fun σ hr => (good_reaches ha hr).writersExclusive, fun ts T τ t hc ht s hs => ?_⟩
  exact (good_called ha hc).recorded_up ht hs

theorem pending_writes_exclusive_writeRun :
    (∃ σ, run (inOrder Schedule.stored [.begin 1, .write 1 1 5]) = .ok σ ∧
      WritersExclusive σ) := by
  obtain ⟨σ, hr, -⟩ := exists_ok_of_eval
    (x := run (inOrder Schedule.stored [.begin 1, .write 1 1 5])) (f := State.trace)
    (a := [.created 1 false, .writeLock 1 x1 [x1.home] 5]) (by decide +kernel)
  exact ⟨σ, hr, (pending_writes_exclusive (by decide +kernel)).1 σ (.run hr)⟩

end States

end RepCRec
