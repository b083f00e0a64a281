import RepCRec.Engine.Queue
import RepCRec.Engine.Versions
import RepCRec.Refinement.History

/-!
The stores in the trace of a run and their timestamps (`Stamped`). A store carries the timestamp of
the end that its commit was fed with, which identifies the commit (`Stamped.same`), and the stores
into a copy are its versions (`Stamped.stored`).
-/

namespace RepCRec

open Container (IterOrder)

namespace Executes

variable {l l' : List Feed} {r r' : Request}

lemma fed_mono (h : Executes l l' r) (hf : Fed l r') : Fed l' r' := by
  cases h with
  | pending => exact hf.snoc _
  | queued => exact hf

lemma lt_of_pending {x : Feed} (hx : AdmissibleNext l x) (hr : x.insr.request x.timestamp = .ok r)
    (hf : Fed l r') : r'.timestamp < r.timestamp := by
  obtain ⟨y, hy, hr'⟩ := hf
  rw [timestamp_of_request hr, timestamp_of_request hr']
  exact hx.later y hy

/-- A request that was fed is the one that is executed if it has its timestamp. -/
lemma eq_of_timestamp (ha : Admissible l) (h : Executes l l' r) (hf : Fed l r')
    (hts : r'.timestamp = r.timestamp) : r' = r := by
  cases h with
  | pending hx hr => exact absurd hts (lt_of_pending hx hr hf).ne
  | queued hq => exact hf.eq_of_timestamp ha hq.fed hts

lemma nonneg (ha : Admissible l) (h : Executes l l' r) : 0 ≤ r.timestamp := by
  cases h with
  | pending hx hr =>
      rw [timestamp_of_request hr]
      exact hx.nonneg
  | queued hq =>
      obtain ⟨y, hy, hr⟩ := hq.fed
      rw [timestamp_of_request hr]
      exact ha.nonneg hy

/-- A begin is later than all requests that were fed. -/
lemma lt_of_isBegin (h : Executes l l' r) (hb : r.isBegin = true) (hf : Fed l r') :
    r'.timestamp < r.timestamp := by
  cases h with
  | pending hx hr => exact lt_of_pending hx hr hf
  | queued hq =>
      rw [hq.not_begin] at hb
      cases hb

end Executes

namespace State

variable {l l' : List Feed} {σ σ' : State} {o : IterOrder} {r : Request} {es : List Event}

/-- What is known of the stores in the trace. -/
structure Stamped (l : List Feed) (σ : State) : Prop where
  stored : ∀ s v, (Variable.initial v).Stores (installsAt σ.trace s v) (σ.getVariable s v)
  fed : ∀ {T s v x k}, .installs T s v x k ∈ σ.trace →
    Fed l (.finish k T) ∧ Begun l T ∧ T ∉ σ.transactions
  stamp : ∀ {T s v x k}, .installs T s v x k ∈ σ.trace → 0 ≤ k
  same : ∀ {T T' s s' v x x' k}, .installs T s v x k ∈ σ.trace →
    .installs T' s' v x' k ∈ σ.trace → x = x'
  created : ∀ {T b}, .created T b ∈ σ.trace → Begun l T
  nonneg : ∀ {T t}, σ.transactions.lookup T = some t → 0 ≤ t.timestamp
  before : ∀ {T T' t b tr₁ tr₂ s v x k}, σ.transactions.lookup T = some t →
    σ.trace = tr₁ ++ .created T b :: tr₂ → .installs T' s v x k ∈ tr₁ → k < t.timestamp

lemma Outcome.committed_of_installs (h : Outcome o σ r es σ') {T : TranId} {s : SiteId} {v : VarId}
    {x : Value} {k : Timestamp} (hes : .installs T s v x k ∈ es) : .committed T ∈ es := by
  obtain ⟨rfl, t, ht, hok, -⟩ := h.installs_mem hes
  cases h with
  | commits => simp
  | commitFails ht' hno =>
      rw [ht] at ht'
      cases ht'
      exact absurd hok hno
  | unavailable ha => cases ha
  | waitsForLock ha => cases ha

namespace Stamped

lemma congr (h : Stamped l σ) (hs : σ'.sites = σ.sites) (ht : σ'.transactions = σ.transactions)
    (htr : σ'.trace = σ.trace) : Stamped l σ' where
  stored s v := by
    have hv : σ'.getVariable s v = σ.getVariable s v := by rw [getVariable, hs, getVariable]
    rw [hv, htr]
    exact h.stored s v
  fed hmem := by
    rw [ht]
    exact h.fed (htr ▸ hmem)
  stamp hmem := h.stamp (htr ▸ hmem)
  same h1 h2 := h.same (htr ▸ h1) (htr ▸ h2)
  created hmem := h.created (htr ▸ hmem)
  nonneg hl := h.nonneg (ht ▸ hl)
  before hl htr' := h.before (ht ▸ hl) (htr ▸ htr')

lemma snoc (h : Stamped l σ) (x : Feed) : Stamped (l ++ [x]) σ where
  stored := h.stored
  fed hmem := ⟨(h.fed hmem).1.snoc x, begun_snoc.mpr (Or.inl (h.fed hmem).2.1), (h.fed hmem).2.2⟩
  stamp := h.stamp
  same := h.same
  created hmem := begun_snoc.mpr (Or.inl (h.created hmem))
  nonneg := h.nonneg
  before := h.before

/-- Aborts add no store. -/
lemma abortTransaction (h : Stamped l σ) {T : TranId} (ha : σ.abortTransaction o T = .ok σ') :
    Stamped l σ' := by
  obtain ⟨hg, -, htr⟩ := gone_abortTransaction ha
  have hmem : ∀ {e : Event}, (∀ T, e ≠ .aborted T) → e ∈ σ'.trace → e ∈ σ.trace := by
    intro e hne he
    rw [htr] at he
    exact (List.mem_append.mp he).resolve_right fun he => hne T (List.mem_singleton.mp he)
  have hlive : ∀ {T' t}, σ'.transactions.lookup T' = some t →
      ∃ t₀, σ.transactions.lookup T' = some t₀ ∧ t₀.timestamp = t.timestamp := by
    intro T' t hl
    obtain ⟨t₀, ht₀, hfix⟩ := Option.map_eq_some_iff.mp (hg.fixed hl)
    exact ⟨t₀, ht₀, congrArg Prod.fst hfix⟩
  refine ⟨fun s v => ?_, fun {T' s v x k} hi => ?_, fun hi => h.stamp (hmem (by simp) hi),
    fun h1 h2 => ?_, fun hc => ?_, fun hl => ?_, ?_⟩
  · have hst := (h.stored s v).trans (hg.stores s v)
    rw [htr, installsAt_append]
    exact hst
  · obtain ⟨h1, h2, h3⟩ := h.fed (hmem (by simp) hi)
    exact ⟨h1, h2, fun hl => h3 (hg.mem_transactions.mp hl).1⟩
  · exact h.same (hmem (by simp) h1) (hmem (by simp) h2)
  · exact h.created (hmem (by simp) hc)
  · obtain ⟨t₀, ht₀, hts⟩ := hlive hl
    exact hts ▸ h.nonneg ht₀
  · intro T' T'' t b tr₁ tr₂ s v x k hl htr' hi
    obtain ⟨t₀, ht₀, hts⟩ := hlive hl
    rw [htr] at htr'
    rcases append_cons_eq_append htr' with ⟨n, h1, -⟩ | ⟨n, h1, -⟩
    · exact hts ▸ h.before ht₀ h1 hi
    · have hc : .created T' b ∈ [Event.aborted T] := h1 ▸ List.mem_append_right n List.mem_cons_self
      simp at hc

/-- A commit adds stores with its own timestamp. -/
lemma exec (ha : Admissible l) (he : Executes l l' r) (hR : Reached l σ) (h : Stamped l σ)
    (hout : Outcome o σ r es σ') : Stamped l' σ' := by
  have hmem : ∀ {e : Event}, e ∈ σ'.trace → e ∈ σ.trace ∨ e ∈ es := by
    intro e hmem
    rwa [hout.trace, List.mem_append] at hmem
  -- a transaction that has committed has no end to execute
  have hnew : ∀ {T T' s s' v w x x' k}, .installs T s v x k ∈ σ.trace →
      .installs T' s' w x' k ∉ es := by
    intro T T' s s' v w x x' k hold hnew
    obtain ⟨hf, -, hdead⟩ := h.fed hold
    obtain ⟨rfl, t, ht, -⟩ := hout.installs_mem hnew
    cases he.eq_of_timestamp ha hf rfl
    exact hdead (Dict.mem_of_lookup ht)
  refine ⟨fun s v => ?_, fun {T s v x k} hi => ?_, fun {T s v x k} hi => ?_,
    fun {T T' s s' v x x' k} h1 h2 => ?_,
    fun {T b} hc => ?_, fun {T t'} hl => ?_, ?_⟩
  · rw [hout.trace, installsAt_append]
    exact (h.stored s v).trans (hout.stored s v)
  · rcases hmem hi with hi | hi
    · obtain ⟨hf, hb, hdead⟩ := h.fed hi
      refine ⟨he.fed_mono hf, he.begun hb, fun hl => ?_⟩
      obtain ⟨b, hb'⟩ := (hout.mem_transactions.mp hl).1.resolve_left hdead
      obtain ⟨ts, rfl⟩ := hout.created_mem hb'
      exact (he.fresh rfl).1 hb
    · have hc := hout.committed_of_installs hi
      obtain ⟨rfl, t, ht, -⟩ := hout.installs_mem hi
      have hT : T ∈ σ.transactions := Dict.mem_of_lookup ht
      exact ⟨he.fed, he.begun (hR.known.live hT), fun hl => (hout.mem_transactions.mp hl).2.1 hc⟩
  · rcases hmem hi with hi | hi
    · exact h.stamp hi
    · obtain ⟨rfl, -⟩ := hout.installs_mem hi
      exact he.nonneg ha
  · rcases hmem h1 with h1 | h1
    · exact (hmem h2).elim (fun h2 => h.same h1 h2) fun h2 => absurd h2 (hnew h1)
    · rcases hmem h2 with h2 | h2
      · exact absurd h1 (hnew h2)
      · obtain ⟨rfl, t, ht, -, hx⟩ := hout.installs_mem h1
        obtain ⟨heq, t', ht', -, hx'⟩ := hout.installs_mem h2
        cases heq
        have hp : ∀ {s x t'}, σ.transactions.lookup T = some t' →
            t'.writeRecords.get? s v = some x →
            σ.view.pending T s v = some x := by
          intro s x t' ht' hx
          simp [view, pending, ht', hx]
        exact hR.good.inv.pending_same (hp ht hx) (hp ht' hx')
  · rcases hmem hc with hc | hc
    · exact he.begun (h.created hc)
    · obtain ⟨ts, rfl⟩ := hout.created_mem hc
      exact (he.fresh rfl).2
  · rcases hout.transaction hl with ⟨t, ht, hafter⟩ | ⟨ts, b', rfl, rfl⟩
    · rw [hafter.timestamp]
      exact h.nonneg ht
    · exact he.nonneg ha
  · intro T T' t' b tr₁ tr₂ s v x k hl htr hi
    rw [hout.trace] at htr
    rcases hout.transaction hl with ⟨t, ht, hafter⟩ | ⟨ts, b', rfl, rfl⟩
    · have hbegun : Begun l T := hR.known.live (Dict.mem_of_lookup ht)
      rcases append_cons_eq_append htr with ⟨n, h1, -⟩ | ⟨n, h1, -⟩
      · rw [hafter.timestamp]
        exact h.before ht h1 hi
      · obtain ⟨ts, rfl⟩ := hout.created_mem (h1 ▸ List.mem_append_right n List.mem_cons_self)
        exact absurd hbegun (he.fresh rfl).1
    · rcases append_cons_eq_append htr with ⟨n, h1, -⟩ | ⟨n, h1, rfl⟩
      · have hc : .created T b ∈ σ.trace := by rw [h1]; simp
        exact absurd (h.created hc) (he.fresh rfl).1
      · rw [hout.create_eq] at h1
        obtain rfl : n = [] := by
          cases n with
          | nil => rfl
          | cons e n => simp at h1
        rw [List.append_nil] at hi
        exact he.lt_of_isBegin rfl (h.fed hi).1

end Stamped

end State

/-- **The stores of a run** carry the timestamps of their commits. -/
theorem stamped_invariant (C : Request → State → Prop) : HistoryInvariant C State.Stamped where
  initial := ⟨fun s v => ⟨rfl, rfl⟩, fun h => by simp [State.initial] at h,
    fun h => by simp [State.initial] at h, fun h => by simp [State.initial] at h,
    fun h => by simp [State.initial] at h, fun h => by simp [State.initial] at h,
    fun h => by simp [State.initial] at h⟩
  congr := State.Stamped.congr
  abort _ h hab := h.abortTransaction hab
  exec ha he hR h _ _ hout := h.exec ha he hR hout
  mono _ h := h.snoc _

end RepCRec
