import RepCRec.Schedules.ConflictFree

/-!
What a run without conflicts computes. `Reference` executes the instructions on a database without
copies, locks and sites: writes are buffered up to the end of their transaction, and a read-only
transaction reads the database at its begin. A run without conflicts does the same, whatever the
order in which the containers are visited (`conflict_free_reference`), and the file that the program
writes is the dump of the database (`program_conflict_free`).
-/

namespace RepCRec

open Container (IterOrder lines)
open Serial (Op lastWrite)

/-! ### The reference -/

/-- The database, the buffered writes, what the read-only transactions see, and the reads so far. -/
structure Reference where
  db : VarId → Value
  buffer : TranId → VarId → Option Value
  snapshot : TranId → Option (VarId → Value)
  reads : List (TranId × VarId × Value)

namespace Reference

def initial : Reference where
  db := initialDb
  buffer _ _ := none
  snapshot _ := none
  reads := []

/-- The database after an end of the transaction. -/
def merged (ρ : Reference) (T : TranId) : VarId → Value := fun v => (ρ.buffer T v).getD (ρ.db v)

/-- The value that the transaction reads. -/
def sees (ρ : Reference) (T : TranId) (v : VarId) : Value := (ρ.snapshot T).getD (ρ.merged T) v

def step (ρ : Reference) : Instruction → Reference
  | .beginRO T => { ρ with snapshot := Function.update ρ.snapshot T (some ρ.db) }
  | .read T n =>
      match VarId.ofInt? n with
      | some v => { ρ with reads := ρ.reads ++ [(T, v, ρ.sees T v)] }
      | none => ρ
  | .write T n x =>
      match VarId.ofInt? n with
      | some v => { ρ with
          buffer := Function.update ρ.buffer T (Function.update (ρ.buffer T) v (some x)) }
      | none => ρ
  | .finish T => { ρ with db := ρ.merged T }
  | _ => ρ

/-- The reference after the instructions. -/
def run (insrs : List Instruction) : Reference := insrs.foldl step initial

lemma run_snoc (insrs : List Instruction) (insr : Instruction) :
    run (insrs ++ [insr]) = (run insrs).step insr := by
  simp [run]

/-- A variable that is not written is not buffered. -/
lemma buffer_of_unwritten {insrs : List Instruction} {T : TranId} {v : VarId}
    (h : ∀ insr ∈ insrs, (T, (v.id : ℤ)) ∉ insr.writing?) : (run insrs).buffer T v = none := by
  induction insrs using List.reverseRecOn with
  | nil => rfl
  | append_singleton insrs insr ih =>
      have hold := ih fun insr' hmem => h insr' (List.mem_append_left _ hmem)
      have hnew := h insr (by simp)
      rw [run_snoc]
      cases insr with
      | write T' n x =>
          rw [step]
          cases hv : VarId.ofInt? n with
          | none => exact hold
          | some w =>
              by_cases hT : T = T'
              · subst hT
                have hw : v ≠ w := by
                  rintro rfl
                  exact hnew (VarId.id_of_ofInt? hv ▸ rfl)
                simpa [hw] using hold
              · simpa [hT] using hold
      | read T' n =>
          rw [step]
          cases VarId.ofInt? n <;> exact hold
      | _ => exact hold

end Reference

/-! ### Reads in the trace -/

def Event.readOf? : Event → Option (TranId × VarId × Value)
  | .reads T _ v x => some (T, v, x)
  | _ => none

/-- The reads in the trace, in their order. -/
def readsIn (trace : List Event) : List (TranId × VarId × Value) := trace.filterMap Event.readOf?

section Reads

variable {o : IterOrder} {σ σ' : State} {r : Request} {tr es : List Event} {T : TranId}
  {v : VarId} {x : Value} {ts : Timestamp}

@[simp] lemma readsIn_append : readsIn (tr ++ es) = readsIn tr ++ readsIn es := by
  simp [readsIn]

lemma mem_readsIn : (T, v, x) ∈ readsIn tr ↔ ∃ s, .reads T s v x ∈ tr := by
  rw [readsIn, List.mem_filterMap]
  constructor
  · rintro ⟨e, he, h⟩
    cases e with
    | reads T' s v' x' =>
        cases h
        exact ⟨s, he⟩
    | _ => cases h
  · rintro ⟨s, hs⟩
    exact ⟨_, hs, rfl⟩

lemma lastWrite_accesses_writeLock {L : List SiteId} (hL : L ≠ []) (T T' : TranId) (v w : VarId)
    (x : Value) : lastWrite (accesses [.writeLock T v L x] T') w =
      if T = T' ∧ v = w then some x else none := by
  have hacc : (Event.writeLock T v L x).access? = some (T, .write v x) := if_neg hL
  by_cases hT : T = T'
  · subst hT
    rw [accesses, List.filterMap_cons_some (Event.accessOf?_eq_some.mpr hacc),
      List.filterMap_nil, Serial.lastWrite_singleton]
    simp [Op.written?]
  · rw [accesses_of_none, if_neg fun h => hT h.1]
    · rfl
    · simp [hacc, hT]

lemma Instruction.access_of_writing {insr : Instruction} {p : TranId × ℤ}
    (h : p ∈ insr.writing?) : p ∈ insr.access? := by
  cases insr with
  | write => exact h
  | _ => cases h

namespace State

/-- Only the request of a read reads. -/
lemma Outcome.readsIn_eq_nil (h : Outcome o σ r es σ') (hr : ∀ ts T v, r ≠ .read ts T v) :
    readsIn es = [] := by
  refine List.eq_nil_iff_forall_not_mem.mpr fun ⟨T, v, x⟩ hmem => ?_
  obtain ⟨s, hs⟩ := mem_readsIn.mp hmem
  obtain ⟨ts, t, heq, -⟩ := h.reads_mem hs
  exact hr ts T v heq

/-- Only the request of a write writes. -/
lemma Outcome.lastWrite_eq_none (h : Outcome o σ r es σ') (hr : ∀ ts T v x, r ≠ .write ts T v x)
    (T : TranId) (v : VarId) : lastWrite (accesses es T) v = none := by
  refine Serial.lastWrite_of_unwritten fun x hmem => ?_
  obtain ⟨e, he, hacc⟩ := mem_accesses.mp hmem
  obtain ⟨-, ts, heq⟩ := h.written_mem he (Event.written_of_access? hacc)
  exact hr ts T v x heq

/-- Without failures a read that does not wait reads once. -/
lemma Outcome.readsIn_read (h : Outcome o σ (.read ts T v) es σ') (hu : σ.Unfailed)
    (hw : ¬Waits (.read ts T v) es) : ∃ x, readsIn es = [(T, v, x)] := by
  cases h with
  | unavailable ha hv hup =>
      rw [hu.isWriteAvailable] at hup
      cases hup
  | waitsForLock => exact absurd (Or.inl (List.mem_singleton_self _)) hw
  | waitsForSite => exact absurd (Or.inr (List.mem_singleton_self _)) hw
  | readsVersion => exact ⟨_, rfl⟩
  | readAborts ht hro hv hno =>
      have hup := hno v.home
      rw [hu.isReadAvailable] at hup
      cases hup
  | sharesOdd => exact ⟨_, rfl⟩
  | sharesEven ht hro hv hst =>
      have hmem : v.home ∈ o.visit (σ.tryAcquireWriteLock T v).siteIdSet := by
        rw [IterOrder.mem_visit, mem_siteIdSet (Or.inr hst)]
        exact ⟨mem_copySites.mpr (home_mem_copies v), hu.isWriteAvailable _⟩
      obtain ⟨s, rest, hcons⟩ := List.exists_cons_of_ne_nil (List.ne_nil_of_mem hmem)
      rw [hcons]
      exact ⟨_, rfl⟩

/-- Without failures a write that does not wait takes the lock, if its transaction has not written
the variable. -/
lemma Outcome.accesses_write (h : Outcome o σ (.write ts T v x) es σ') (hg : σ.Good)
    (hu : σ.Unfailed) (hp : σ.WritesPending) (hT : T ∈ σ.transactions)
    (hw : ¬Waits (.write ts T v x) es) (hfirst : lastWrite (accesses σ.trace T) v = none) :
    ∃ L, L ≠ [] ∧ es = [.writeLock T v L x] := by
  have hno : ∀ s, (σ.getVariable s v).hasExclusiveLock T = false := by
    intro s
    rw [← Bool.not_eq_true]
    intro hx
    have hx' : σ.view.excl T s v := beq_iff_eq.mp hx
    obtain ⟨y, hy⟩ := Option.ne_none_iff_exists'.mp (hg.inv.pending_iff.mpr hx')
    rw [(hp T hT v y).mpr ⟨s, hy⟩] at hfirst
    cases hfirst
  cases h with
  | unavailable ha hv hup =>
      rw [hu.isWriteAvailable] at hup
      cases hup
  | waitsForLock => exact absurd (Or.inl (List.mem_singleton_self _)) hw
  | writeLocks hgr =>
      refine ⟨_, List.ne_nil_of_mem (a := v.home) ((mem_siteIdSet hgr).mpr ⟨?_, ?_⟩), rfl⟩
      · exact mem_copySites.mpr (home_mem_copies v)
      · exact hu.isWriteAvailable _
  | rewritesOdd _ hx =>
      rw [hno] at hx
      cases hx
  | rewritesEven _ hx =>
      rw [hno] at hx
      cases hx

end State

end Reads

/-! ### The simulation -/

/-- An invariant of runs holds where the instruction is executed. -/
lemma ExecutedAtOnce.holds {Q : List Feed → State → Prop} {l : List Feed} {x : Feed}
    {σ σ' τ σ₁ : State} {r : Request} {es : List Event} (hx : ExecutedAtOnce l x σ r τ es σ₁ σ')
    (hQ : HistoryInvariant (fun _ _ => True) Q) (ha : Admissible l) (hrun : run l = .ok σ) :
    Q l τ := by
  obtain ⟨g, rfl⟩ := hx.before
  exact hQ.congr (hQ.reaches ha (by simp) (.run hrun)) rfl rfl rfl

/-- The trace shows the database of the reference, its buffers, its snapshots and its reads. -/
structure Represents (ρ : Reference) (tr : List Event) : Prop where
  db : committed tr = ρ.db
  buffer : ∀ T v, lastWrite (accesses tr T) v = ρ.buffer T v
  snapshot : ∀ {T db}, ρ.snapshot T = some db →
    ∃ tr₁ tr₂, tr = tr₁ ++ .created T true :: tr₂ ∧ db = committed tr₁
  no_snapshot : ∀ {T}, ρ.snapshot T = none → .created T true ∉ tr
  reads : readsIn tr = ρ.reads

namespace Represents

variable {ρ ρ' : Reference} {tr es : List Event} {l : List Feed} {x : Feed} {σ σ' τ σ₁ : State}
  {r : Request} {T : TranId} {v : VarId} {z : Value} {ts : Timestamp}

lemma initial : Represents .initial [] :=
  ⟨rfl, fun _ _ => rfl, fun h => by simp [Reference.initial] at h, by simp, rfl⟩

/-- Entries without begins of read-only transactions. -/
lemma append (h : Represents ρ tr) (hcr : ∀ T, .created T true ∉ es)
    (hdb : committed (tr ++ es) = ρ'.db)
    (hbuf : ∀ T v, (lastWrite (accesses es T) v).or (ρ.buffer T v) = ρ'.buffer T v)
    (hsnap : ρ'.snapshot = ρ.snapshot) (hreads : ρ.reads ++ readsIn es = ρ'.reads) :
    Represents ρ' (tr ++ es) where
  db := hdb
  buffer T v := by rw [accesses_append, Serial.lastWrite_append, h.buffer, hbuf]
  snapshot hs := by
    obtain ⟨tr₁, tr₂, rfl, hold⟩ := h.snapshot (hsnap ▸ hs)
    exact ⟨tr₁, tr₂ ++ es, by simp, hold⟩
  no_snapshot {T} hs := by
    rw [List.mem_append, not_or]
    exact ⟨h.no_snapshot (hsnap ▸ hs), hcr T⟩
  reads := by rw [readsIn_append, h.reads, hreads]

/-- A read-only transaction begins. -/
lemma beginRO (h : Represents ρ tr) (T : TranId) :
    Represents (ρ.step (.beginRO T)) (tr ++ [.created T true]) where
  db := by rw [committed_append_of_ne (by simp), h.db]; rfl
  buffer T' v := by
    rw [accesses_append, Serial.lastWrite_append, h.buffer]
    rfl
  snapshot {T' db} hs := by
    have hs' : Function.update ρ.snapshot T (some ρ.db) T' = some db := hs
    by_cases hT : T' = T
    · subst hT
      rw [Function.update_self, Option.some.injEq] at hs'
      exact ⟨tr, [], rfl, by rw [← hs', h.db]⟩
    · rw [Function.update_of_ne hT] at hs'
      obtain ⟨tr₁, tr₂, rfl, hold⟩ := h.snapshot hs'
      exact ⟨tr₁, tr₂ ++ [.created T true], by simp, hold⟩
  no_snapshot {T'} hs := by
    have hs' : Function.update ρ.snapshot T (some ρ.db) T' = none := hs
    by_cases hT : T' = T
    · rw [hT, Function.update_self] at hs'
      cases hs'
    · rw [Function.update_of_ne hT] at hs'
      simp [h.no_snapshot hs', hT]
  reads := by
    rw [readsIn_append, h.reads]
    exact List.append_nil _

/-- The value that a transaction reads is the one that it sees. -/
lemma reads_sees (h : Represents ρ τ.trace) (hR : State.Reached l τ) (hS : State.Stamped l τ)
    (hO : State.StoredOnTime l τ) (hC : State.Created (Begun l) τ) (hu : τ.Unfailed)
    {o : IterOrder} (hout : State.Outcome o τ r es σ') {s : SiteId} (hes : .reads T s v z ∈ es)
    (hbuf : ∀ t, τ.transactions.lookup T = some t → t.isReadOnly = false → ρ.buffer T v = none) :
    z = ρ.sees T v := by
  obtain ⟨ts, t, rfl, ht, hcase⟩ := hout.reads_mem hes
  have hbegun := hC.live ht
  rw [Reference.sees]
  rcases hcase with ⟨hro, hs, -, hz⟩ | ⟨hro, hst, hs, rfl, -⟩
  · rw [hro] at hbegun
    cases hsnap : ρ.snapshot T with
    | none => exact absurd hbegun (h.no_snapshot hsnap)
    | some db =>
        obtain ⟨tr₁, tr₂, htr, rfl⟩ := h.snapshot hsnap
        exact hS.eq_committed ht htr (hO.hasSnapshot ht htr (mem_copySites.mp hs)) hz
  · rw [hro] at hbegun
    cases hsnap : ρ.snapshot T with
    | some db =>
        obtain ⟨tr₁, tr₂, htr, -⟩ := h.snapshot hsnap
        have htrue : Event.created T true ∈ τ.trace := htr ▸ by simp
        exact absurd (hC.unique hbegun htrue) Bool.false_ne_true
    | none =>
        rw [Option.getD_none, Reference.merged, hbuf t ht hro, Option.getD_none, ← h.db]
        have hmem := ((State.mem_siteIdSet (Or.inr hst)).mp hs).1
        exact hR.good.inv.one_copy (mem_copySites.mp hmem) (hu.isReadAvailable s v)

/-- **One instruction** has the effect that it has on the reference. -/
theorem exec (hx : ExecutedAtOnce l x σ r τ es σ₁ σ') (ha : Admissible (l ++ [x]))
    (hc : ConflictFreeNext l x) (hrun : RepCRec.run l = .ok σ) (hO : State.StoredOnTime l τ)
    (h : Represents (Reference.run (l.map Feed.insr)) τ.trace) :
    Represents (Reference.run ((l ++ [x]).map Feed.insr)) σ₁.trace := by
  obtain ⟨ha', hax⟩ := (admissible_snoc l x).mp ha
  have hout := hx.outcome
  have hg := hx.reached.good
  have hS : State.Stamped l τ := hx.holds (stamped_invariant fun _ _ => True) ha' hrun
  obtain ⟨hC, -, hp⟩ := hx.holds (accessing_invariant fun _ _ => True) ha' hrun
  have hsim : State.Simulates τ es σ₁ := hout.simulates_of_fresh hg fun hb hT =>
    (hx.serves.executes.fresh hb).1 (hx.reached.known.live hT)
  have hm := ne_missing_of_inRange hax.inRange hx.request
  have hw : ¬State.Waits r es := fun hw =>
    hx.unhindered.not_entersQueue hg hx.unfailed hc hx.request hm
      ((hout.entersQueue_iff hg).mpr hw)
  have hbuf : ∀ {T v}, (∀ y ∈ l, (T, (v.id : ℤ)) ∉ y.insr.writing?) →
      (Reference.run (l.map Feed.insr)).buffer T v = none := fun hno =>
    Reference.buffer_of_unwritten (List.forall_mem_map.mpr hno)
  rw [List.map_append, List.map_singleton, Reference.run_snoc, hout.trace]
  generalize Reference.run (l.map Feed.insr) = ρ at h hbuf
  have hdb : (∀ ts T, r ≠ .finish ts T) → committed (τ.trace ++ es) = ρ.db := fun hno => by
    rw [committed_append_of_ne fun T s v z k hi => hno k T (hout.installs_mem hi).1, h.db]
  have hcr : (∀ ts T, r ≠ .create ts T true) → ∀ T, .created T true ∉ es := fun hno T hmem => by
    obtain ⟨ts, heq⟩ := hout.created_mem hmem
    exact hno ts T heq
  have hmakes := makes_of_request hx.request
  generalize hi : x.insr = i at hmakes ⊢
  cases hmakes with
  | missingRead | missingWrite | missingRecover | missingFail => exact absurd rfl (hm _ _)
  | beginRO =>
      rw [hout.create_eq]
      exact h.beginRO _
  | @read T n v hn =>
      obtain ⟨z, hz⟩ := hout.readsIn_read hx.unfailed hw
      obtain ⟨s, hs⟩ := mem_readsIn.mp (hz ▸ List.mem_singleton_self _)
      have hval : z = ρ.sees T v := by
        refine h.reads_sees hx.reached hS hO hC hx.unfailed hout hs fun t ht hro => hbuf ?_
        have hno := (hc.reads_first (T, n) (by rw [hi]; rfl)).resolve_left fun hread => by
          rw [(hx.unhindered.readOnly T t ht).mpr hread] at hro
          cases hro
        rw [VarId.id_of_ofInt? hn] at hno
        exact fun y hy hwr => hno y hy (Instruction.access_of_writing hwr)
      rw [Reference.step, hn]
      refine h.append (hcr (by simp)) (hdb (by simp)) (fun T' w => ?_) rfl ?_
      · rw [hout.lastWrite_eq_none (by simp), Option.none_or]
      · rw [hz, hval]
  | @write T n v z hn =>
      have hfirst : lastWrite (accesses τ.trace T) v = none := by
        have hno := (hc.writes_once (T, n) (by rw [hi]; rfl)).2
        rw [VarId.id_of_ofInt? hn] at hno
        rw [h.buffer, hbuf hno]
      have hT : T ∈ τ.transactions := hx.unhindered.live_of_next hax hc (Or.inl (by rw [hi]; rfl))
      obtain ⟨L, hL, rfl⟩ := hout.accesses_write hg hx.unfailed hp hT hw hfirst
      rw [Reference.step, hn]
      refine h.append (hcr (by simp)) (hdb (by simp)) (fun T' w => ?_) rfl (List.append_nil _)
      rw [lastWrite_accesses_writeLock hL]
      by_cases hT' : T' = T
      · subst hT'
        by_cases hv : w = v
        · simp [hv]
        · simp [hv, Ne.symm hv]
      · simp [hT', Ne.symm hT']
  | @finish T =>
      have hmem : .committed T ∈ es := (Unhindered.committed_iff hx.unfailed
        (Unhindered.sparesSites hc hx.request) hm hx.request hout).mpr (by rw [hi]; rfl)
      refine h.append (hcr (by simp)) (funext fun v => ?_) (fun T' v => ?_) rfl ?_
      · rw [← hout.trace, hout.committed_eq hsim hp hmem, h.buffer, h.db]
        rfl
      · rw [hout.lastWrite_eq_none (by simp), Option.none_or]
        rfl
      · rw [hout.readsIn_eq_nil (by simp), List.append_nil]
        rfl
  | _ =>
      refine h.append (hcr (by simp)) (hdb (by simp)) (fun T v => ?_) rfl ?_
      · rw [hout.lastWrite_eq_none (by simp), Option.none_or]
        rfl
      · rw [hout.readsIn_eq_nil (by simp), List.append_nil]
        rfl

end Represents

/-! ### Runs without conflicts -/

section Runs

variable {l : List Feed}

/-- The run follows the reference, and its stores are on time. -/
structure Follows (l : List Feed) (σ : State) : Prop where
  onTime : State.StoredOnTime l σ
  represents : Represents (Reference.run (l.map Feed.insr)) σ.trace

lemma follows_initial : Follows [] State.initial :=
  ⟨storedOnTime_invariant.initial.2, .initial⟩

lemma Follows.feed {x : Feed} {σ σ' τ σ₁ : State} {r : Request} {es : List Event}
    (ha : Admissible (l ++ [x])) (hc : ConflictFree (l ++ [x])) (hrun : run l = .ok σ)
    (hx : ExecutedAtOnce l x σ r τ es σ₁ σ') (h : Follows l σ) : Follows (l ++ [x]) σ' := by
  obtain ⟨ha', -⟩ := (admissible_snoc l x).mp ha
  obtain ⟨-, hcx⟩ := (conflictFree_snoc l x).mp hc
  have hS : State.Stamped l τ := hx.holds (stamped_invariant fun _ _ => True) ha' hrun
  obtain ⟨hO, hrep⟩ : Follows l τ := by
    obtain ⟨g, rfl⟩ := hx.before
    exact ⟨h.onTime.congr rfl rfl, h.represents⟩
  have hprompt : State.Prompt r τ := by
    refine ⟨Unhindered.sparesSites hcx hx.request, ?_⟩
    rintro ts T - hmem
    obtain ⟨q, hq, -⟩ := State.mem_blockedRequests.mp hmem
    exact hx.unhindered.queue T (Dict.mem_of_lookup hq)
  have hO' := hO.exec hx.serves hx.reached hS hprompt hx.outcome
  have hrep' := hrep.exec hx ha hcx hrun hO
  rw [hx.after]
  exact ⟨hO'.congr rfl rfl, hrep'⟩

/-- A run without conflicts succeeds and follows the reference, and the queue is empty then. -/
lemma exists_follows (ha : Admissible l) (hc : ConflictFree l) :
    ∃ σ, run l = .ok σ ∧ σ.isAllInstructionsFinished = true ∧ Follows l σ := by
  obtain ⟨σ, hrun, hU, hF⟩ := run_unhindered follows_initial
    (fun ha hc hrun hx h => h.feed ha hc hrun hx) ha hc
  refine ⟨σ, hrun, (State.isAllInstructionsFinished_iff (request_run hrun)).mpr ?_, hF⟩
  exact List.eq_nil_iff_forall_not_mem.mpr fun T hT => hU.queue T (AList.mem_keys.mpr hT)

/-- All copies have the values of the reference. -/
lemma Follows.value_eq {σ : State} (h : Follows l σ) (hR : State.Reached l σ) {v : VarId}
    {s : SiteId} (hs : s ∈ copies v) :
    (σ.getVariable s v).value = (Reference.run (l.map Feed.insr)).db v := by
  rw [← h.represents.db]
  exact hR.good.inv.one_copy hs ((hR.unfailed h.onTime.unfailed).readable s v)

/-- **Runs without conflicts** do what the reference does: at the end all copies have the values of
its database, and the reads have returned what its reads return. -/
theorem conflict_free_reference (ha : Admissible l) (hc : ConflictFree l) :
    ∃ σ, run l = .ok σ ∧ σ.isAllInstructionsFinished = true ∧
      (∀ v, ∀ s ∈ copies v,
        (σ.getVariable s v).value = (Reference.run (l.map Feed.insr)).db v) ∧
      readsIn σ.trace = (Reference.run (l.map Feed.insr)).reads := by
  obtain ⟨σ, hrun, hf, hF⟩ := exists_follows ha hc
  have hR := reached_reaches ha (.run hrun)
  exact ⟨σ, hrun, hf, fun v s hs => hF.value_eq hR hs, hF.represents.reads⟩

theorem conflict_free_reference_instructions : ∃ σ,
    run (inOrder Schedule.stored conflictFreeInstructions) = .ok σ ∧
      (σ.getVariable s1 x2).value = 7 ∧
      readsIn σ.trace = [(1, x2, 20), (3, x2, 20), (2, x2, 7), (3, x4, 40)] := by
  obtain ⟨σ, hrun, -, hval, hreads⟩ := conflict_free_reference
    (l := inOrder Schedule.stored conflictFreeInstructions) (by decide +kernel) (by decide +kernel)
  refine ⟨σ, hrun, (hval x2 s1 (mem_copies_of_even rfl s1)).trans ?_, hreads.trans ?_⟩
  · decide +kernel
  · decide +kernel

end Runs

/-! ### The program -/

section Program

variable {sch : Schedules} {text : List Char} {insrs : List Instruction}

lemma map_feedsAfter (sch : Timestamp → Schedule) (ts : Timestamp) (insrs : List Instruction) :
    (feedsAfter sch ts insrs).map Feed.insr = insrs := by
  induction insrs generalizing ts with
  | nil => rfl
  | cons insr insrs ih => rw [feedsAfter, List.map_cons, ih]

/-- **The file** of a text without conflicts is the dump of the database of the reference: it
depends neither on the order in which the containers are visited nor on the number of rounds. -/
theorem program_conflict_free (hp : instructionsOf (lines text) = .ok insrs)
    (ha : Admissible (sch.feeds insrs)) (hc : ConflictFree (sch.feeds insrs)) (n : ℕ) :
    executeAdvancedDatabase sch n text = .ok (some (dumpOf (Reference.run insrs).db)) := by
  have hno : ¬Begun (sch.feeds insrs) (-1) := by
    rintro ⟨y, hy, hbegin⟩
    obtain ⟨past, hnext⟩ := hc.exists_next hy
    exact hnext.named (tranId_of_begun hbegin)
  obtain ⟨σ, hrun, hf, hF⟩ := exists_follows ha hc
  have hR := reached_reaches ha (.run hrun)
  rw [executeAdvancedDatabase_eq_ok hp ha hno]
  refine ⟨σ, σ, hrun, State.drain_of_finished hf, (dump_eq_dumpOf fun s v hs => ?_).symm⟩
  have hsame := hF.value_eq hR hs
  rwa [Schedules.feeds, map_feedsAfter] at hsame

/-- The second transaction reads what the first one has written, and the third one does not end. -/
def conflictFreeText : List Char :=
  ("begin(T1)\nbegin(T2)\nW(T1,x2,7)\nW(T2,x1,5)\nend(T1)\nR(T2,x2)\nend(T2)\n" ++
    "beginRO(T4)\nbegin(T3)\nW(T3,x4,8)\nR(T4,x4)\n").toList

def conflictFreeTextInstructions : List Instruction :=
  [.begin 1, .begin 2, .write 1 2 7, .write 2 1 5, .finish 1, .read 2 2, .finish 2, .beginRO 4,
    .begin 3, .write 3 4 8, .read 4 4]

theorem program_conflict_free_conflictFreeText :
    executeAdvancedDatabase Schedules.stored 0 conflictFreeText = .ok (some (dumpOf fun v =>
      if v.id = 1 then 5 else if v.id = 2 then 7 else v.id * 10)) := by
  have hp : instructionsOf (lines conflictFreeText) = .ok conflictFreeTextInstructions := by
    decide +kernel
  have ha : Admissible (Schedules.stored.feeds conflictFreeTextInstructions) := by decide +kernel
  have hdb : ∀ v ∈ VarId.all, (Reference.run conflictFreeTextInstructions).db v =
      if v.id = 1 then (5 : Value) else if v.id = 2 then 7 else v.id * 10 := by decide +kernel
  rw [program_conflict_free hp ha (by decide +kernel) 0, funext fun v => hdb v (VarId.mem_all v)]

end Program

end RepCRec
