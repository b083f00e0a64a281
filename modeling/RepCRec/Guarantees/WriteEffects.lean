import RepCRec.Guarantees.Replication
import RepCRec.Refinement.History
import RepCRec.Refinement.Unfailed

/-!
What a write that does not wait leaves behind. It takes effect (`TakesEffect`) unless no copy of its
variable is at a site that is up, or the variable is replicated and its transaction owns it already:
then the lock manager names no sites, and the old value stays (`write_takes_effect_iff`). Where no
write is of this kind, a commit stores the values of the last writes (`write_takes_effect`).
-/

namespace RepCRec

open AvailableCopies (Steps)
open Container (IterOrder)

/-- The value that the entry reports for a write of `v` by `T` that does not wait. -/
def Event.written? (T : TranId) (v : VarId) : Event → Option Value
  | .writeLock T' v' _ x => if T' = T ∧ v' = v then some x else none
  | .rewrites T' v' x => if T' = T ∧ v' = v then some x else none
  | .unavailable (.write _ T' v' x) => if T' = T ∧ v' = v then some x else none
  | _ => none

/-- The entry is for a write of `x` that does not wait. -/
inductive Event.Written (T : TranId) (v : VarId) (x : Value) : Event → Prop where
  | writeLock {L} : Written T v x (.writeLock T v L x)
  | rewrites : Written T v x (.rewrites T v x)
  | unavailable {ts} : Written T v x (.unavailable (.write ts T v x))

lemma Event.written?_eq_some {e : Event} {T : TranId} {v : VarId} {x : Value} :
    e.written? T v = some x ↔ e.Written T v x := by
  constructor
  · intro h
    cases e with
    | writeLock T' v' L y =>
        obtain ⟨⟨rfl, rfl⟩, rfl⟩ := Option.ite_some_none_eq_some.mp h
        exact .writeLock
    | rewrites T' v' y =>
        obtain ⟨⟨rfl, rfl⟩, rfl⟩ := Option.ite_some_none_eq_some.mp h
        exact .rewrites
    | unavailable r =>
        cases r with
        | write ts T' v' y =>
            obtain ⟨⟨rfl, rfl⟩, rfl⟩ := Option.ite_some_none_eq_some.mp h
            exact .unavailable
        | _ => cases h
    | _ => cases h
  · intro h
    cases h <;> simp [written?]

/-- A step that writes is that of a write that does not wait. -/
lemma Event.Acts.written {e : Event} {a : AvailableCopies.Action SiteId VarId TranId Value}
    {T : TranId} {v : VarId} {x : Value} (h : e.Acts a) (hw : a.Writes T v x) :
    e.Written T v x := by
  rcases hw with ⟨L, rfl⟩ | ⟨L, rfl⟩
  · cases h
    exact .writeLock
  · cases h
    exact .rewrites

/-- The value of the last write of `v` by `T` that did not wait. -/
def lastWritten (trace : List Event) (T : TranId) (v : VarId) : Option Value :=
  (trace.filterMap (Event.written? T v)).getLast?

section LastWritten

variable {tr es : List Event} {e : Event} {T : TranId} {v : VarId} {x : Value}

lemma lastWritten_append_of_none (h : ∀ e ∈ es, e.written? T v = none) :
    lastWritten (tr ++ es) T v = lastWritten tr T v := by
  rw [lastWritten, List.filterMap_append, List.filterMap_eq_nil_iff.mpr h, List.append_nil,
    lastWritten]

lemma lastWritten_concat (h : e.written? T v = some x) :
    lastWritten (tr ++ [e]) T v = some x := by
  rw [lastWritten, List.filterMap_append, List.filterMap_cons_some h, List.filterMap_nil,
    List.getLast?_concat]

end LastWritten

namespace State

variable {o : IterOrder} {σ σ' : State} {r : Request} {es : List Event} {T : TranId} {v : VarId}
  {s : SiteId} {x y : Value} {ts : Timestamp}

/-- The value is recorded for `T` at one site or more, and at all sites where `T` owns the copy. -/
def TakesEffect (σ : State) (T : TranId) (v : VarId) (x : Value) : Prop :=
  (∃ s, σ.pending T s v = some x) ∧
    ∀ s, (σ.getVariable s v).exclusiveLockOwner = some T → σ.pending T s v = some x

/-- Some copy of `v` is at a site that is up, and a replicated variable that `T` owns already has
the value `x` recorded. -/
def WriteReaches (σ : State) (T : TranId) (v : VarId) (x : Value) : Prop :=
  (∃ s ∈ copySites v, σ.isWriteAvailable s = true) ∧ (v.isOdd = false →
    ∀ s, (σ.getVariable s v).exclusiveLockOwner = some T → σ.pending T s v = some x)

namespace Good

/-- A recorded value is at a copy at a site that is up. -/
lemma copy_of_pending (hg : σ.Good) (hp : σ.pending T s v = some x) :
    s ∈ copySites v ∧ σ.isWriteAvailable s = true := by
  have hx := hg.inv.excl_of_pending (T := T) (s := s) (v := v) hp
  exact ⟨mem_copySites.mpr (hg.inv.excl_copies hx), hg.inv.excl_up hx⟩

/-- No value is recorded for a variable none of whose copies is at a site that is up. -/
lemma not_takesEffect (hg : σ.Good) (hdown : ¬∃ s ∈ copySites v, σ.isWriteAvailable s = true) :
    ¬σ.TakesEffect T v x := by
  rintro ⟨⟨s, hp⟩, -⟩
  exact hdown ⟨s, hg.copy_of_pending hp⟩

/-- The values recorded for a variable that the transaction owns at some copy. -/
lemma takesEffect_iff_of_excl (hx : (σ.getVariable s v).exclusiveLockOwner = some T) :
    σ.TakesEffect T v x ↔
      ∀ s, (σ.getVariable s v).exclusiveLockOwner = some T → σ.pending T s v = some x :=
  ⟨And.right, fun h => ⟨⟨s, h s hx⟩, h⟩⟩

/-- A write that is granted takes effect if it is granted at some site. -/
lemma takesEffect_of_granted (hg : σ.Good) (hgr : LockGranted (σ.tryAcquireWriteLock T v))
    (hsim : Simulates σ [.writeLock T v (σ.tryAcquireWriteLock T v).siteIdSet x] σ') :
    σ'.TakesEffect T v x ↔ ∃ s ∈ copySites v, σ.isWriteAvailable s = true := by
  have hmem : ∀ s, s ∈ (σ.tryAcquireWriteLock T v).siteIdSet ↔
      s ∈ copySites v ∧ σ.isWriteAvailable s = true := fun s => mem_siteIdSet hgr
  have hfree := granted_free hg hgr
  have hrun := hsim.steps
  generalize (σ.tryAcquireWriteLock T v).siteIdSet = L at hmem hrun
  by_cases hL : L = []
  · -- nothing is locked, and nothing was
    rw [show actions [.writeLock T v L x] = [] by simp [actions, Event.action?, hL]] at hrun
    have hview : σ'.view = σ.view := hrun.of_nil
    have hup : ∀ s, σ'.isWriteAvailable s = true ↔ σ.isWriteAvailable s = true := fun s =>
      iff_of_eq (congrFun (congrArg AvailableCopies.Config.up hview) s)
    have hdown : ¬∃ s ∈ copySites v, σ.isWriteAvailable s = true := by
      rintro ⟨s, hs, hup⟩
      simpa [hL] using (hmem s).mpr ⟨hs, hup⟩
    refine iff_of_false ((hsim.good hg).not_takesEffect ?_) hdown
    simpa only [hup] using hdown
  · rw [show actions [.writeLock T v L x] = [.lockExcl T v {s | s ∈ L} x] by
      simp [actions, Event.action?, hL]] at hrun
    have hview := hrun.of_single.eq_of_lockExcl
    obtain ⟨s, hs⟩ := List.exists_mem_of_ne_nil L hL
    have hpend : ∀ s ∈ L, σ'.pending T s v = some x := by
      intro s hs
      have hp := congrFun (congrFun (congrFun
        (congrArg AvailableCopies.Config.pending hview) T) s) v
      refine hp.trans ?_
      simp [AvailableCopies.Config.lockExcl, AvailableCopies.Config.takeExcl,
        AvailableCopies.Config.setPending, hs]
    refine iff_of_true ⟨⟨s, hpend s hs⟩, fun s hx => ?_⟩ ⟨s, (hmem s).mp hs⟩
    have hx' := (iff_of_eq (congrFun (congrFun (congrFun (congrArg AvailableCopies.Config.excl
      hview) T) s) v)).mp hx
    rcases hx' with hold | ⟨-, hs, -⟩
    · have hno := (hfree s (hg.inv.excl_copies hold) (hg.inv.excl_up hold) T).1
      exact absurd hold hno
    · exact hpend s hs

/-- The second write of a variable with one copy takes effect. -/
lemma takesEffect_of_rewritten (hg : σ.Good) (hv : v.isOdd = true) (hown : σ.view.excl T v.home v)
    (hsim : Simulates σ [.rewrites T v x] σ') : σ'.TakesEffect T v x ↔ σ.WriteReaches T v x := by
  have hrun := hsim.steps
  rw [show actions [.rewrites T v x] = [.overwrite T v {v.home} x] by
    simp [actions, Event.action?, hv]] at hrun
  have hview := hrun.of_single.eq_of_overwrite
  have hhome : v.home ∈ copySites v := mem_copySites.mpr (home_mem_copies v)
  have hp : σ'.view.pending T v.home v = some x := by
    rw [hview]
    simp [AvailableCopies.Config.setPending]
  refine iff_of_true ⟨⟨v.home, hp⟩, fun s hs => ?_⟩
    ⟨⟨v.home, hhome, hg.inv.excl_up hown⟩, fun heven => ?_⟩
  · -- the home of `v` is its only copy
    have hs : s ∈ copies v := (hsim.good hg).inv.excl_copies (T := T) (v := v) hs
    rw [copies_eq_of_odd hv, Set.mem_singleton_iff] at hs
    rw [hs]
    exact hp
  · rw [hv] at heven
    cases heven

/-- **A write takes effect** where it reaches a copy, and does not repeat the write of a replicated
variable with another value. -/
theorem takesEffect_iff (hg : σ.Good) (hx : σ.exec o (.write ts T v x) = .ok σ')
    (hout : Outcome o σ (.write ts T v x) es σ') (hw : .waitsForLock (.write ts T v x) ∉ es) :
    σ'.TakesEffect T v x ↔ σ.WriteReaches T v x := by
  have hsim : Simulates σ es σ' := hout.simulates hg fun _ _ _ heq => by cases heq
  cases hout with
  | unavailable ha hv hdown =>
      cases ha
      have hno : ¬∃ s ∈ copySites v, σ.isWriteAvailable s = true := by
        rw [copySites, if_pos hv]
        simp [hdown]
      exact iff_of_false (hg.not_takesEffect hno) fun h => hno h.1
  | waitsForLock => simp at hw
  | writeLocks hgr _ _ =>
      rw [hg.takesEffect_of_granted hgr hsim]
      refine ⟨fun hs => ⟨hs, fun _ s hown => ?_⟩, And.left⟩
      have hown' : σ.view.excl T s v := hown
      have hno := (granted_free hg hgr s (hg.inv.excl_copies hown') (hg.inv.excl_up hown') T).1
      exact absurd hown' hno
  | rewritesOdd hv hown _ _ => exact hg.takesEffect_of_rewritten hv (beq_iff_eq.mp hown) hsim
  | @rewritesEven ts T v x s hv hown _ =>
      have hown' : (σ.getVariable s v).exclusiveLockOwner = some T := beq_iff_eq.mp hown
      have hcopy : s ∈ copySites v := mem_copySites.mpr (mem_copies_of_even hv s)
      have hup : σ.isWriteAvailable s = true := hg.inv.excl_up (T := T) (s := s) (v := v) hown'
      have hsame : (σ.emit (.rewrites T v x)).TakesEffect T v x ↔ σ.TakesEffect T v x := Iff.rfl
      rw [hsame, takesEffect_iff_of_excl hown']
      exact ⟨fun h => ⟨⟨s, hcopy, hup⟩, fun _ => h⟩, fun h => h.2 hv⟩

end Good

/-! ### The last writes -/

/-- The only entry of a write that does not wait. -/
lemma Outcome.written_mem (h : Outcome o σ r es σ') {e : Event} (he : e ∈ es)
    (hw : e.Written T v x) : es = [e] ∧ ∃ ts, r = .write ts T v x := by
  cases hw with
  | writeLock =>
      cases h with
      | writeLocks =>
          cases List.mem_singleton.mp he
          exact ⟨rfl, _, rfl⟩
      | sharesEven =>
          revert he
          generalize o.visit _ = l
          cases l <;> simp [firstRead]
      | _ => simp [storeEvent] at he
  | rewrites =>
      cases h with
      | rewritesOdd =>
          cases List.mem_singleton.mp he
          exact ⟨rfl, _, rfl⟩
      | rewritesEven =>
          cases List.mem_singleton.mp he
          exact ⟨rfl, _, rfl⟩
      | sharesEven =>
          revert he
          generalize o.visit _ = l
          cases l <;> simp [firstRead]
      | _ => simp [storeEvent] at he
  | unavailable =>
      cases h with
      | unavailable =>
          cases List.mem_singleton.mp he
          exact ⟨rfl, _, rfl⟩
      | sharesEven =>
          revert he
          generalize o.visit _ = l
          cases l <;> simp [firstRead]
      | _ => simp [storeEvent] at he

/-- The values that are recorded are those of the last writes. -/
def LastRecorded (σ : State) : Prop :=
  ∀ T s v x, σ.pending T s v = some x → lastWritten σ.trace T v = some x

/-- A request that does not write a variable records no value for it. -/
lemma LastRecorded.simulates (h : σ.LastRecorded) (hsim : Simulates σ es σ')
    (hnone : ∀ e ∈ es, e.written? T v = none) (hp : σ'.pending T s v = some x) :
    lastWritten σ'.trace T v = some x := by
  rw [hsim.trace, lastWritten_append_of_none hnone]
  rcases hsim.steps.pending_cases (T := T) (s := s) (v := v) hp with hold | ⟨a, ha, hwr⟩
  · exact h T s v x hold
  · obtain ⟨e, he, hact⟩ := mem_actions ha
    have hwritten : e.written? T v = some x := Event.written?_eq_some.mpr (hact.written hwr)
    rw [hnone e he] at hwritten
    cases hwritten

/-- A request that takes effect records the value of the last write. -/
lemma LastRecorded.exec (h : σ.LastRecorded) (hg : σ.Good) (hx : σ.exec o r = .ok σ')
    (hout : Outcome o σ r es σ') (hsim : Simulates σ es σ')
    (hr : ∀ ts T v x, r = .write ts T v x → σ.SentToWait T v ∨ σ.WriteReaches T v x) :
    σ'.LastRecorded := by
  intro T s v x hp
  by_cases hw : ∃ e ∈ es, ∃ y, e.written? T v = some y
  · obtain ⟨e, he, y, hy⟩ := hw
    obtain ⟨rfl, ts, rfl⟩ := hout.written_mem he (Event.written?_eq_some.mp hy)
    have hno : .waitsForLock (.write ts T v y) ∉ [e] := by
      intro hmem
      obtain rfl := List.mem_singleton.mp hmem
      cases hy
    have hsent : ¬σ.SentToWait T v := fun hs => by
      have hwaits : Waits (.write ts T v y) [e] := (hout.entersQueue_iff hg).mp hs
      rcases hwaits with hwait | hwait
      · exact hno hwait
      · obtain rfl := List.mem_singleton.mp hwait
        cases hy
    have heff : σ'.TakesEffect T v y :=
      (hg.takesEffect_iff hx hout hno).mpr ((hr ts T v y rfl).resolve_left hsent)
    have hexcl := (hsim.good hg).inv.excl_of_pending (T := T) (s := s) (v := v) hp
    have hval : σ'.pending T s v = some y := heff.2 s hexcl
    rw [hout.trace, lastWritten_concat hy, ← hval, hp]
  · exact h.simulates hsim (fun e he => Option.eq_none_iff_forall_ne_some.mpr fun y hy =>
      hw ⟨e, he, y, hy⟩) hp

end State

/-- **The values that are recorded**, where all writes wait or take effect. -/
theorem lastRecorded_invariant :
    HistoryInvariant (fun r τ => ∀ ts T v x, r = .write ts T v x →
      τ.SentToWait T v ∨ τ.WriteReaches T v x) fun _ => State.LastRecorded where
  initial T s v x h := by simp [State.pending, State.initial] at h
  congr h _ ht htr T s v x hp := by
    rw [htr]
    refine h T s v x ?_
    rwa [State.pending, ← ht]
  abort hg h ha _ _ _ _ :=
    h.simulates (State.simulates_abortTransaction hg ha) (by simp [Event.written?])
  exec ha he hR h hC hx hout := by
    refine h.exec hR.good hx hout (hout.simulates_of_fresh hR.good fun hb hT => ?_) hC
    exact (he.fresh hb).1 (hR.known.live hT)
  mono _ h := h

section Runs

variable {l : List Feed}

/-- **Writes take effect**: a write that does not wait takes effect exactly when it reaches a copy
and does not repeat, with another value, the write of a replicated variable. In a run whose writes
are all so, a commit stores the values of the last writes. -/
theorem write_takes_effect (ha : Admissible l) :
    (∀ σ o ts T v x σ', Meets l σ → T ∈ σ.transactions → σ.exec o (.write ts T v x) = .ok σ' →
      σ'.trace ≠ σ.trace ++ [.waitsForLock (.write ts T v x)] →
      (σ'.TakesEffect T v x ↔ σ.WriteReaches T v x)) ∧
    ((∀ ts T v x τ, CalledDuring l (.write ts T v x) τ → τ.SentToWait T v ∨ τ.WriteReaches T v x) →
      ∀ σ tr₁ tr₂ T s v x ts, Reaches l σ → σ.trace = tr₁ ++ .installs T s v x ts :: tr₂ →
        lastWritten tr₁ T v = some x) := by
  constructor
  · intro σ o ts T v x σ' hm _ hx hw
    obtain ⟨es, hout⟩ := State.exec_outcome hx
    refine (hm.good ha).takesEffect_iff hx hout fun hmem => hw ?_
    obtain ⟨-, -, rfl | rfl⟩ := hout.waits (Or.inl hmem)
    · exact hout.trace
    · simp at hmem
  · intro hC σ tr₁ tr₂ T s v x ts hr htr
    rcases traced_reaches ha hr _ _ _ htr with ⟨T', heq⟩ | ⟨r, τ, o, τ', es₁, es₂, hc, -, hout, rfl⟩
    · cases heq
    have hmem : .installs T s v x ts ∈ es₁ ++ .installs T s v x ts :: es₂ := by simp
    obtain ⟨rfl, t, ht, -, hrec⟩ := hout.installs_mem hmem
    have hnone : ∀ e ∈ es₁, e.written? T v = none := by
      intro e he
      rw [Option.eq_none_iff_forall_ne_some]
      intro y hy
      obtain ⟨-, ts', heq⟩ :=
        hout.written_mem (List.mem_append_left _ he) (Event.written?_eq_some.mp hy)
      cases heq
    obtain ⟨l', -, hlast⟩ := lastRecorded_invariant.called ha
      (fun r τ hc ts T v x heq => hC ts T v x τ (heq ▸ hc)) hc
    rw [lastWritten_append_of_none hnone]
    exact hlast T s v x (by simp [State.pending, ht, hrec])

/-- A transaction writes a replicated variable twice. -/
def rewriteRun : List Feed :=
  inOrder Schedule.stored [.begin 1, .write 1 2 5, .write 1 2 6, .finish 1]

theorem write_takes_effect_rewriteRun : ∃ σ σ', Reaches (rewriteRun.take 1) σ ∧
    σ.exec IterOrder.stored (.write 1 1 x2 5) = .ok σ' ∧ σ'.TakesEffect 1 x2 5 := by
  obtain ⟨σ, hr, hf⟩ := exists_ok_of_eval (x := run (rewriteRun.take 1))
    (f := fun σ => (decide (1 ∈ σ.transactions), SiteId.all.all fun s =>
        decide (σ.isWriteAvailable s = true ∧ (σ.getVariable s x2).exclusiveLockOwner = none),
      (σ.exec IterOrder.stored (.write 1 1 x2 5)).toOption.map fun σ' : State =>
        decide (σ'.trace = σ.trace ++ [.waitsForLock (.write 1 1 x2 5)])))
    (a := (true, true, some false)) (by decide +kernel)
  simp only [Prod.mk.injEq, decide_eq_true_iff, List.all_eq_true] at hf
  obtain ⟨hlive, hall, hx⟩ := hf
  obtain ⟨σ', hx, hw⟩ := exists_ok_of_eval hx
  have hreaches : σ.WriteReaches 1 x2 5 := by
    refine ⟨⟨s1, by decide, (hall s1 (SiteId.mem_all s1)).1⟩, fun _ s hown => ?_⟩
    rw [(hall s (SiteId.mem_all s)).2] at hown
    cases hown
  exact ⟨σ, σ', .run hr, hx, ((write_takes_effect (by decide +kernel)).1 σ _ 1 1 x2 5 σ'
    (Or.inl (.run hr)) hlive hx (of_decide_eq_false hw)).mpr hreaches⟩

/-- **The second write is lost**: it does not wait, the first value stays recorded at all sites, and
the commit stores it. -/
theorem second_write_lost : Admissible rewriteRun ∧ ∃ σ σ' τ, Reaches (rewriteRun.take 2) σ ∧
    1 ∈ σ.transactions ∧ σ.exec IterOrder.stored (.write 2 1 x2 6) = .ok σ' ∧
    σ'.trace = σ.trace ++ [.rewrites 1 x2 6] ∧
    (∀ s, (σ'.getVariable s x2).exclusiveLockOwner = some 1 ∧ σ'.pending 1 s x2 = some 5) ∧
    Reaches rewriteRun τ ∧ .installs 1 s1 x2 5 3 ∈ τ.trace ∧
    lastWritten τ.trace 1 x2 = some 6 := by
  obtain ⟨σ, hr, hf⟩ := exists_ok_of_eval (x := run (rewriteRun.take 2))
    (f := fun σ => (decide (1 ∈ σ.transactions),
      (σ.exec IterOrder.stored (.write 2 1 x2 6)).toOption.map fun σ' : State =>
        decide (σ'.trace = σ.trace ++ [.rewrites 1 x2 6]) && SiteId.all.all fun s =>
          decide ((σ'.getVariable s x2).exclusiveLockOwner = some 1 ∧
            σ'.pending 1 s x2 = some 5)))
    (a := (true, some true)) (by decide +kernel)
  obtain ⟨τ, hτ, hg⟩ := exists_ok_of_eval (x := run rewriteRun)
    (f := fun τ => decide (.installs 1 s1 x2 5 3 ∈ τ.trace ∧ lastWritten τ.trace 1 x2 = some 6))
    (a := true) (by decide +kernel)
  rw [Prod.mk.injEq, decide_eq_true_iff] at hf
  obtain ⟨σ', hx, hf'⟩ := exists_ok_of_eval hf.2
  simp only [Bool.and_eq_true, decide_eq_true_iff, List.all_eq_true] at hf' hg
  exact ⟨by decide +kernel, σ, σ', τ, .run hr, hf.1, hx, hf'.1,
    fun s => hf'.2 s (SiteId.mem_all s), .run hτ, hg⟩

end Runs

end RepCRec
