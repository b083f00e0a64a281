import RepCRec.Engine.Progress
import RepCRec.Guarantees.Replication
import RepCRec.Refinement.History

/-!
The check that a transaction makes when it ends. It compares the availability of the sites with
the accesses that the transaction has recorded, so it covers the sites written to and the reads
that are recorded. A transaction that is not read-only does not record its reads of replicated
variables: it may commit although a copy that it has read is not readable any more
(`commit_unchecked`), and the check is complete exactly when there is no such copy
(`commit_checks_visited_iff`).
-/

namespace RepCRec

open Container (IterOrder ok_bind)

namespace State

variable {B B' : TranId → Prop} {σ σ' : State} {T : TranId} {v : VarId} {s : SiteId}
  {o : IterOrder} {ts : Timestamp} {t : Transaction} {r : Request} {es : List Event}

/-- `T` was granted a write at the site `s`. -/
def WroteAt (σ : State) (T : TranId) (s : SiteId) : Prop :=
  ∃ v L x, .writeLock T v L x ∈ σ.trace ∧ s ∈ L

/-- `T` has read the copy of `v` at the site `s`. -/
def ReadAt (σ : State) (T : TranId) (s : SiteId) (v : VarId) : Prop :=
  ∃ x, .reads T s v x ∈ σ.trace

/-- All sites that `T` has visited are available: for writes, and for the variables it read. -/
def VisitedAvailable (σ : State) (T : TranId) : Prop :=
  (∀ s, σ.WroteAt T s → σ.isWriteAvailable s = true) ∧
    ∀ s v, σ.ReadAt T s v → σ.isReadAvailable s v = true

/-- The end of `T` commits when all sites that `T` has visited are available, and aborts `T`
otherwise. -/
def EndChecksVisited (σ : State) (ts : Timestamp) (T : TranId) : Prop :=
  ∀ o σ' es, σ.exec o (.finish ts T) = .ok σ' → σ'.trace = σ.trace ++ es →
    (.committed T ∈ es ∧ σ.VisitedAvailable T) ∨ (.aborted T ∈ es ∧ ¬σ.VisitedAvailable T)

/-- If `T` is not read-only, and the odd variables that it read are readable, then so are the
copies of the replicated variables that it read. -/
def SharedReadsReadable (σ : State) (T : TranId) : Prop :=
  ∀ t, σ.transactions.lookup T = some t → t.isReadOnly = false →
    (∀ s v, σ.ReadAt T s v → v.isOdd = true → σ.isReadAvailable s v = true) →
    ∀ s v, σ.ReadAt T s v → v.isOdd = false → σ.isReadAvailable s v = true

/-! ### What is recorded -/

/-- The recorded reads are the reads of odd variables and those of read-only transactions. -/
structure Visits (B : TranId → Prop) (σ : State) : Prop where
  accessed : ∀ {T t}, σ.transactions.lookup T = some t → ∀ s v,
    t.readAccessedSites.get? s v ≠ none ↔
      σ.ReadAt T s v ∧ (v.isOdd = true ∨ t.isReadOnly = true)
  begun : ∀ {T s v}, σ.ReadAt T s v → B T

namespace Visits

lemma abortTransaction (h : Visits B σ) (ha : σ.abortTransaction o T = .ok σ') : Visits B σ' := by
  obtain ⟨hg, -, htr⟩ := gone_abortTransaction ha
  have hread : ∀ {T' s v}, σ'.ReadAt T' s v ↔ σ.ReadAt T' s v := by simp [ReadAt, htr]
  refine ⟨fun {T' t'} ht' s v => ?_, fun hr => h.begun (hread.mp hr)⟩
  obtain ⟨t, ht, hfix⟩ := Option.map_eq_some_iff.mp (hg.fixed ht')
  obtain ⟨-, h2, h3⟩ : t.timestamp = t'.timestamp ∧ t.isReadOnly = t'.isReadOnly ∧
      t.readAccessedSites = t'.readAccessedSites := by
    simpa [Transaction.fixed] using hfix
  rw [hread, ← h2, ← h3, h.accessed ht]

lemma exec (h : Visits B σ) (hB : ∀ {T}, B T → B' T)
    (hfresh : r.isBegin = true → ¬B r.transactionId)
    (hrw : r.isReadWrite = true → B r.transactionId)
    (hout : Outcome o σ r es σ') : Visits B' σ' := by
  have hread : ∀ {T s v}, σ'.ReadAt T s v ↔ σ.ReadAt T s v ∨ ∃ x, .reads T s v x ∈ es := by
    intro T s v
    simp only [ReadAt, hout.trace, List.mem_append, exists_or]
  refine ⟨fun {T t'} ht' s v => ?_, fun {T s v} hr => ?_⟩
  · rw [hread]
    rcases hout.transaction ht' with ⟨t, ht, hafter⟩ | ⟨ts, b, rfl, rfl⟩
    · rw [hafter.accessed, h.accessed ht, hafter.isReadOnly, exists_and_right, or_and_right]
    · rw [hout.create_eq]
      have hno : ¬σ.ReadAt T s v := fun hr => hfresh rfl (h.begun hr)
      simp [hno]
  · rcases hread.mp hr with hr | ⟨x, hx⟩
    · exact hB (h.begun hr)
    · obtain ⟨ts, t, rfl, -⟩ := hout.reads_mem hx
      exact hB (hrw rfl)

end Visits

/-! ### The check -/

lemma created_of_mem_actions {tr : List Event} (h : .create T ∈ actions tr) :
    ∃ b, .created T b ∈ tr := by
  obtain ⟨e, he, hact⟩ := List.mem_filterMap.mp h
  cases e with
  | created T' b =>
      cases hact
      exact ⟨b, he⟩
  | _ => simp [Event.action?] at hact

/-- The sites that a live transaction wrote to are up. -/
lemma Reached.isWriteAvailable_of_wroteAt {l : List Feed} (h : Reached l σ) (hc : Created B σ)
    (hT : T ∈ σ.transactions) (hw : σ.WroteAt T s) :
    σ.isWriteAvailable s = true := by
  obtain ⟨v, L, x, hmem, hs⟩ := hw
  obtain ⟨tr₁, tr₂, htr⟩ := List.append_of_mem hmem
  have hrun := h.simulation.steps
  have hact : actions σ.trace = actions tr₁ ++ .lockExcl T v {s | s ∈ L} x :: actions tr₂ := by
    have he : (Event.writeLock T v L x).action? = some (.lockExcl T v {s | s ∈ L} x) := by
      rw [Event.action?, if_neg (List.ne_nil_of_mem hs)]
    rw [htr, actions_append]
    exact congrArg _ (List.filterMap_cons_some he)
  rw [hact] at hrun
  -- the transaction is created before it is granted the write, and only once
  have hnew : .create T ∉ actions tr₂ := by
    intro h2
    obtain ⟨b, hb⟩ := created_of_mem_actions
      (hrun.created_of_granted fun hl => by simp [view, initial] at hl)
    obtain ⟨b', hb'⟩ := created_of_mem_actions h2
    obtain ⟨tr₃, tr₄, rfl⟩ := List.append_of_mem hb'
    have heq : σ.trace = (tr₁ ++ .writeLock T v L x :: tr₃) ++ .created T b' :: tr₄ := by
      simp [htr]
    exact hc.once heq (List.mem_append_left _ hb)
  have hp := AvailableCopies.pending_of_granted hrun hnew hT hs
  exact h.good.inv.excl_up (h.good.inv.pending_iff.mp hp)

lemma Visits.commitOk_iff (h : Visits B σ) (ht : σ.transactions.lookup T = some t)
    (hup : ∀ s ∈ t.writeAccessedSites, σ.isWriteAvailable s = true) :
    σ.CommitOk t ↔ ∀ s v, σ.ReadAt T s v → v.isOdd = true ∨ t.isReadOnly = true →
      σ.isReadAvailable s v = true := by
  constructor
  · intro hok s v hr hor
    obtain ⟨x, hx⟩ := Option.ne_none_iff_exists'.mp ((h.accessed ht s v).mpr ⟨hr, hor⟩)
    exact hok.2 s v x hx
  · intro hread
    refine ⟨hup, fun s v x hx => ?_⟩
    obtain ⟨hr, hor⟩ := (h.accessed ht s v).mp (by simp [hx])
    exact hread s v hr hor

/-- The end of a transaction checks all sites that were visited exactly when the copies of
replicated variables that it read are readable. -/
theorem Visits.endChecksVisited_iff (h : Visits B σ)
    (hrec : ∀ t, σ.transactions.lookup T = some t →
      ∀ s ∈ t.writeAccessedSites, σ.isWriteAvailable s = true)
    (hwrote : T ∈ σ.transactions → ∀ s, σ.WroteAt T s → σ.isWriteAvailable s = true) :
    σ.EndChecksVisited ts T ↔ σ.SharedReadsReadable T := by
  constructor
  · intro hend t ht hro hodd s v hr _
    have hT : T ∈ σ.transactions := Dict.mem_of_lookup ht
    have hok : σ.CommitOk t := (h.commitOk_iff ht (hrec t ht)).mpr fun s v hr hor =>
      hodd s v hr (hor.resolve_right (by simp [hro]))
    obtain ⟨σ', hx⟩ : ∃ σ', σ.exec IterOrder.stored (.finish ts T) = .ok σ' :=
      exists_exec_finish hT
    obtain ⟨es, hout⟩ := exec_outcome hx
    rcases hend _ σ' es hx hout.trace with ⟨-, hvis⟩ | ⟨hab, -⟩
    · exact hvis.2 s v hr
    · cases hout with
      | unavailable ha => cases ha
      | waitsForLock ha => cases ha
      | commits => simp [storeEvent] at hab
      | commitFails ht' hno _ =>
          rw [ht] at ht'
          cases ht'
          exact absurd hok hno
  · intro hread o σ' es hx htr
    obtain ⟨es', hout⟩ := exec_outcome hx
    obtain rfl : es = es' := List.append_cancel_left (htr.symm.trans hout.trace)
    cases hout with
    | unavailable ha => cases ha
    | waitsForLock ha => cases ha
    | @commits _ _ t _ ht hok _ =>
        have hT : T ∈ σ.transactions := Dict.mem_of_lookup ht
        have hrec' := (h.commitOk_iff ht (hrec t ht)).mp hok
        refine Or.inl ⟨by simp, hwrote hT, fun s v hr => ?_⟩
        cases hv : v.isOdd with
        | true => exact hrec' s v hr (Or.inl hv)
        | false =>
            cases hro : t.isReadOnly with
            | true => exact hrec' s v hr (Or.inr hro)
            | false =>
                exact hread t ht hro (fun s v hr hodd => hrec' s v hr (Or.inl hodd)) s v hr hv
    | @commitFails _ _ t _ ht hno _ =>
        refine Or.inr ⟨by simp, fun hvis => hno ?_⟩
        exact (h.commitOk_iff ht (hrec t ht)).mpr fun s v hr _ => hvis.2 s v hr

end State

/-- **The recorded reads.** -/
theorem visits_invariant (C : Request → State → Prop) :
    HistoryInvariant C fun l => State.Visits (Begun l) where
  initial := ⟨fun h => by simp [State.initial] at h, fun h => by
    simp [State.ReadAt, State.initial] at h⟩
  congr {l σ σ'} h _ ht htr := by
    have hread : ∀ {T s v}, σ'.ReadAt T s v ↔ σ.ReadAt T s v := by simp [State.ReadAt, htr]
    exact ⟨fun hl s v => by rw [hread]; exact h.accessed (ht ▸ hl) s v,
      fun hr => h.begun (hread.mp hr)⟩
  abort _ h ha := h.abortTransaction ha
  exec _ he _ h _ _ hout := h.exec he.begun (fun hb => (he.fresh hb).1) he.begun_of_isReadWrite hout
  mono _ h := ⟨h.accessed, fun hr => begun_snoc.mpr (Or.inl (h.begun hr))⟩

section Runs

variable {l : List Feed} {τ : State} {ts : Timestamp} {T : TranId}

/-- **The check at the end of a transaction** covers all that it has visited exactly when the
copies of replicated variables that it read under locks are readable. -/
theorem commit_checks_visited_iff (ha : Admissible l) (hc : CalledDuring l (.finish ts T) τ) :
    τ.EndChecksVisited ts T ↔ τ.SharedReadsReadable T := by
  obtain ⟨l₁, hR, hV⟩ := (visits_invariant fun _ _ => True).called ha (by simp) hc
  obtain ⟨B, hB⟩ := created_called hc ha
  exact hV.endChecksVisited_iff (fun t ht s => hR.good.recorded_up ht) fun hT s =>
    hR.isWriteAvailable_of_wroteAt hB hT

/-- A run of a transaction that reads a replicated variable and commits. -/
def checkedRun : List Feed :=
  inOrder Schedule.stored [.begin 1, .read 1 2, .finish 1]

theorem commit_checks_visited_iff_checkedRun :
    ∃ τ, CalledDuring checkedRun (.finish 2 1) τ ∧ τ.EndChecksVisited 2 1 := by
  obtain ⟨τ, hc, hf⟩ := exists_calledDuring (l := checkedRun.take 2)
    (x := ⟨.finish 1, 2, Schedule.stored⟩) (r := .finish 2 1)
    (f := fun τ => (τ.trace, τ.isReadAvailable s10 x2))
    (a := ([.created 1 false, .reads 1 s10 x2 20, .sharedLock 1 x2 SiteId.all.reverse], true)) []
    (by decide +kernel)
  rw [Prod.mk.injEq] at hf
  refine ⟨τ, hc, (commit_checks_visited_iff (by decide +kernel) hc).mpr fun t _ _ _ s v hr _ => ?_⟩
  obtain ⟨x, hx⟩ := hr
  rw [hf.1] at hx
  have heq : s = s10 ∧ v = x2 := by simp_all
  rw [heq.1, heq.2, hf.2]

/-- The site of the copy that was read fails before the transaction ends. -/
def uncheckedRun : List Feed :=
  inOrder Schedule.stored [.begin 1, .read 1 2, .fail 10, .finish 1]

/-- **An unchecked read**: the transaction commits although the copy that it read is at a site that
has failed. -/
theorem commit_unchecked : Admissible uncheckedRun ∧
    ∃ τ, CalledDuring uncheckedRun (.finish 3 1) τ ∧ ¬τ.EndChecksVisited 3 1 ∧
      ∃ s, τ.ReadAt 1 s x2 ∧ τ.isReadAvailable s x2 = false ∧
        ∃ o σ', τ.exec o (.finish 3 1) = .ok σ' ∧ σ'.trace = τ.trace ++ [.committed 1] := by
  obtain ⟨τ, hc, hf⟩ := exists_calledDuring (l := uncheckedRun.take 3)
    (x := ⟨.finish 1, 3, Schedule.stored⟩) (r := .finish 3 1)
    (f := fun τ => (decide (.reads 1 s10 x2 20 ∈ τ.trace), τ.isReadAvailable s10 x2,
      (τ.exec IterOrder.stored (.finish 3 1)).toOption.map fun σ' : State =>
        σ'.trace.drop τ.trace.length))
    (a := (true, false, some [.committed 1])) [] (by decide +kernel)
  simp only [Prod.mk.injEq, decide_eq_true_iff] at hf
  obtain ⟨hmem, hdown, hx⟩ := hf
  obtain ⟨σ', hx, hdrop⟩ := exists_ok_of_eval hx
  obtain ⟨es, hout⟩ := State.exec_outcome hx
  rw [hout.trace, List.drop_left] at hdrop
  subst hdrop
  refine ⟨by decide +kernel, τ, hc, fun h => ?_, s10, ⟨20, hmem⟩, hdown, _, σ', hx, hout.trace⟩
  rcases h _ σ' _ hx hout.trace with ⟨-, hvis⟩ | ⟨hab, -⟩
  · have hup := hvis.2 s10 x2 ⟨20, hmem⟩
    rw [hdown] at hup
    cases hup
  · simp at hab

end Runs

end RepCRec
