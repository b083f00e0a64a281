import RepCRec.Engine.SiteWaits
import RepCRec.Refinement.Blocking
import RepCRec.Refinement.Register
import RepCRec.Refinement.Stamps

/-!
What is left in the queue. A live transaction whose end was issued has its end in the queue, since
an end that is executed ends its transaction (`endsQueued_run`); and the walk over the queue
executes whatever is blocked with the transactions that do not wait, and leaves the others as they
are (`walkRule_untouched`).
-/

namespace RepCRec

open Container (IterOrder)

namespace State

variable {o : IterOrder} {σ σ' σ₁ τ : State} {r : Request} {es : List Event} {T T' X : TranId}
  {l : List Feed} {sch : Schedule} {E : TranId → Timestamp → Prop} {rest fin : List TranId}
  {ts : Timestamp}

/-! ### Blocked ends -/

/-- The live transactions that `E` ends have this end in the queue, and are not among `fin`. -/
def EndsQueued (E : TranId → Timestamp → Prop) (fin : List TranId) (σ : State) : Prop :=
  ∀ T ts, T ∈ σ.transactions → E T ts → T ∉ fin ∧ σ.Queued (.finish ts T)

/-- An end that is executed ends its transaction. -/
lemma Outcome.not_live_of_finish (h : Outcome o σ (.finish ts T) es σ') : T ∉ σ'.transactions := by
  intro hT
  obtain ⟨-, hc, hab⟩ := h.mem_transactions.mp hT
  cases h with
  | unavailable ha => cases ha
  | waitsForLock ha => cases ha
  | commits => simp at hc
  | commitFails => simp at hab

namespace EndsQueued

lemma congr (h : EndsQueued E fin σ) (ht : σ'.transactions = σ.transactions)
    (hq : σ'.blockedTransactionsQueue = σ.blockedTransactionsQueue) : EndsQueued E fin σ' := by
  intro T ts hT hE
  rw [ht] at hT
  rw [Queued, hq]
  exact h T ts hT hE

lemma exec (h : EndsQueued E fin σ) (hout : Outcome o σ r es σ')
    (hb : r.isBegin = true → ∀ ts, ¬E r.transactionId ts) : EndsQueued E fin σ' := by
  intro T ts hT hE
  obtain ⟨hT', -, hab⟩ := hout.mem_transactions.mp hT
  rcases hT' with hlive | ⟨b, hb'⟩
  · obtain ⟨hfin, hq⟩ := h T ts hlive hE
    exact ⟨hfin, (hout.queued hq).resolve_right hab⟩
  · obtain ⟨ts', rfl⟩ := hout.created_mem hb'
    exact absurd hE (hb rfl ts)

lemma abortTransaction (h : EndsQueued E fin σ) (ha : σ.abortTransaction o T' = .ok σ') :
    EndsQueued E fin σ' := by
  obtain ⟨hg, hq, -⟩ := gone_abortTransaction ha
  intro T ts hT hE
  obtain ⟨hlive, hne⟩ := hg.mem_transactions.mp hT
  obtain ⟨hfin, rs, hrs, hmem⟩ := h T ts hlive hE
  refine ⟨hfin, rs, ?_, hmem⟩
  rw [hq, Dict.lookup_erase]
  exact (if_neg hne).trans hrs

lemma enqueue (h : EndsQueued E fin σ) (r : Request) :
    EndsQueued E fin (σ.addRequestToBlockedQueue r) := fun T ts hT hE =>
  (h T ts hT hE).imp id fun hq => hq.addRequest r

lemma mono {E' : TranId → Timestamp → Prop} (h : EndsQueued E fin σ)
    (hE : ∀ T ts, E' T ts → E T ts ∨ (T ∈ σ.transactions → T ∉ fin ∧ σ.Queued (.finish ts T))) :
    EndsQueued E' fin σ := fun T ts hT hE' =>
  (hE T ts hE').elim (h T ts hT) fun h => h hT

lemma settled : Settled (EndsQueued E fin) where
  graph h _ := h.congr rfl rfl
  abort h ha := h.abortTransaction ha
  request h := h.congr rfl rfl

end EndsQueued

/-- While the walk executes the requests of a transaction, its end is among them. -/
lemma walkRule_ends (ha : Admissible l) (sch : Schedule) (E : TranId → Timestamp → Prop) :
    WalkRule sch (fun _ _ => True) (fun ks fin σ => InWalk l ks fin σ ∧ EndsQueued E fin σ)
      fun T rs rest fin σ => InSet l T rs rest fin σ ∧ ∀ T' ts, T' ∈ σ.transactions → E T' ts →
        T' ∉ fin ∧ (T' = T → .finish ts T ∈ rs) ∧ (T' ≠ T → σ.Queued (.finish ts T')) := by
  have hbase := walkRule_waiting ha sch (C := fun _ _ => True)
  refine ⟨fun h hs => ⟨hbase.skip h.1 hs, h.2⟩, fun {T rs rest fin σ} h hq hw hs => ?_,
    fun {T r rs rest fin σ σ'} h hC hx => ?_, fun {T rest fin σ} h hT => ?_⟩
  · refine ⟨hbase.enter h.1 hq hw hs, fun T' ts hT' hE => ?_⟩
    obtain ⟨hfin, rs', hrs', hmem⟩ := h.2 T' ts hT' hE
    refine ⟨hfin, ?_, fun _ => ⟨rs', hrs', hmem⟩⟩
    rintro rfl
    cases hq.symm.trans hrs'
    exact hmem
  · refine ⟨hbase.exec h.1 hC hx, fun T' ts hT' hE => ?_⟩
    obtain ⟨es, hout⟩ := exec_outcome hx
    obtain ⟨hr, hrT⟩ := h.1.queueable r List.mem_cons_self
    obtain ⟨hlive, -, hab⟩ := hout.live hr.not_begin hT'
    obtain ⟨hfin, hcurr, hother⟩ := h.2 T' ts hlive hE
    refine ⟨hfin, ?_, fun hne => (hout.queued (hother hne)).resolve_right hab⟩
    rintro rfl
    refine (List.mem_cons.mp (hcurr rfl)).resolve_left ?_
    rintro rfl
    exact hout.not_live_of_finish hT'
  · refine ⟨hbase.leave h.1 hT, fun T' ts hT' hE => ?_⟩
    obtain ⟨hfin, hcurr, hother⟩ := h.2 T' ts hT' hE
    have hne : T' ≠ T := fun heq => List.not_mem_nil (hcurr heq)
    exact ⟨by simp [List.mem_insert_iff, hne, hfin], hother hne⟩

/-- The ends stay in the queue until they are executed. -/
lemma EndsQueued.serve (ha : Admissible l) (hR : Reached l σ) (hW : Waiting (· = -1) σ)
    (h : EndsQueued E [] σ) (hs : State.serveBlocked sch σ = .ok σ') : EndsQueued E [] σ' := by
  rw [serveBlocked, Container.bind_eq_ok] at hs
  obtain ⟨⟨fin, σ₂⟩, hwalk, hs⟩ := hs
  cases hs
  have hI := ((walkRule_ends ha sch E).walk ⟨.start hR hW, h⟩ (fun _ _ _ => trivial) hwalk).2
  intro T ts hT hE
  obtain ⟨hfin, rs, hrs, hmem⟩ := hI T ts hT hE
  refine ⟨List.not_mem_nil, rs, ?_, hmem⟩
  rw [Dict.lookup_foldl_erase]
  exact (if_neg fun hT => hfin (sch.finish.mem_visit.mp hT)).trans hrs

/-! ### What the walk leaves -/

/-- The walk that began in `σ₁` has served `fin` and has `rest` before it: it has entered no one
into the queue, has changed no others but to free them, and has passed by no one who does not
wait. -/
structure Untouched (σ₁ : State) (rest fin : List TranId) (σ : State) : Prop where
  queue : ∀ {T}, T ∈ σ.blockedTransactionsQueue → T ∈ σ₁.blockedTransactionsQueue
  waits : ∀ {T}, T ∉ fin → σ.waitsFor T = σ₁.waitsFor T ∨ σ.waitsFor T = []
  site : ∀ {T}, T ∉ fin → T ∈ σ.siteWaitingMap → T ∈ σ₁.siteWaitingMap
  free : ∀ {T}, σ₁.waitsFor T = [] → T ∉ σ₁.siteWaitingMap → T ∈ σ.blockedTransactionsQueue →
    T ∈ fin ∨ T ∈ rest

/-- Other transactions do not begin to wait. -/
lemma Outcome.waitsFor_cases (h : Outcome o σ r es σ') (hT : r.transactionId ≠ T) :
    σ'.waitsFor T = σ.waitsFor T ∨ σ'.waitsFor T = [] := by
  refine h.index_induction (P := fun σ₁ => σ₁.waitsFor T = σ.waitsFor T ∨ σ₁.waitsFor T = [])
    (Or.inl rfl) (fun hs ih => hs.waitsFor T ▸ ih) (fun _ hl ih => ?_) (fun _ _ _ _ => Or.inl rfl)
    (fun T' v s ha _ _ _ _ => Or.inl ?_) (fun _ _ _ _ _ _ _ => Or.inl rfl)
    (fun _ _ _ _ _ _ _ _ _ => Or.inl rfl) (fun _ ih => ih) fun _ _ _ hrec => Or.inl ?_
  · rw [hl.waits]
    split_ifs
    · exact Or.inr rfl
    · exact ih
  · refine waitsFor_assignWaitForGraph_of_ne fun heq => hT ?_
    exact (Request.transactionId_of_access ha).trans heq.symm
  · rw [waitsFor, hrec.waitForGraph, waitsFor]

namespace Untouched

lemma start (h : ∀ T ∈ σ.blockedTransactionsQueue, T ∈ rest) : Untouched σ rest [] σ :=
  ⟨id, fun _ => Or.inl rfl, fun _ => id, fun {T} _ _ hT => Or.inr (h T hT)⟩

/-- The walk passes by a transaction that waits, or is not in the queue any more. -/
lemma skip (h : Untouched σ₁ (T :: rest) fin σ) (hs : σ.blockedTransactionsQueue.lookup T = none ∨
    σ.isWaitingForLock T = true ∨ σ.isTransactionWaitingForSite T = true) :
    Untouched σ₁ rest fin σ := by
  refine ⟨h.queue, h.waits, h.site, fun {T'} hw hsite hq => ?_⟩
  rcases h.free hw hsite hq with hfin | hrest
  · exact Or.inl hfin
  · rcases List.mem_cons.mp hrest with rfl | hrest
    · by_cases hfin : T' ∈ fin
      · exact Or.inl hfin
      · rcases hs with hno | hwait | hwait
        · rw [← AList.lookup_isSome, hno] at hq
          cases hq
        · have hnil : σ.waitsFor T' = [] := (h.waits hfin).elim (fun heq => heq.trans hw) id
          rw [isWaitingForLock, hnil] at hwait
          cases hwait
        · exact absurd (h.site hfin (of_decide_eq_true hwait)) hsite
    · exact Or.inr hrest

/-- The walk executes a request of the transaction `T` that it visits. -/
lemma exec (h : Untouched σ₁ rest fin σ) (hT : r.transactionId ∈ fin)
    (hq : r.transactionId ∈ σ₁.blockedTransactionsQueue) (hout : Outcome o σ r es σ') :
    Untouched σ₁ rest fin σ' := by
  have hmem : ∀ {T}, T ∈ σ'.blockedTransactionsQueue →
      T ∈ σ.blockedTransactionsQueue ∨ r.transactionId = T := by
    intro T hT'
    exact (hout.mem_queue.mp hT').2.imp id And.left
  refine ⟨fun {T} hT' => ?_, fun {T} hfin => ?_, fun {T} hfin hs => ?_,
    fun {T} hw hs hT' => ?_⟩
  · rcases hmem hT' with hold | rfl
    · exact h.queue hold
    · exact hq
  · have hne : r.transactionId ≠ T := fun heq => hfin (heq ▸ hT)
    exact (hout.waitsFor_cases hne).elim (fun heq => heq ▸ h.waits hfin) Or.inr
  · obtain ⟨s, hl⟩ := Dict.exists_lookup hs
    rcases hout.siteWaitingMap_cases hl with ⟨hold, -⟩ | ⟨ts, v, rfl, -⟩ | ⟨ts, v, rfl, -⟩
    · exact h.site hfin (Dict.mem_of_lookup hold)
    · exact absurd hT hfin
    · exact absurd hT hfin
  · rcases hmem hT' with hold | rfl
    · exact h.free hw hs hold
    · exact Or.inl hT

end Untouched

/-- **What the walk leaves.** -/
lemma walkRule_untouched (ha : Admissible l) (sch : Schedule) (σ₁ : State) :
    WalkRule sch (fun _ _ => True) (fun ks fin σ => InWalk l ks fin σ ∧ Untouched σ₁ ks fin σ)
      fun T rs rest fin σ => InSet l T rs rest fin σ ∧ T ∈ σ₁.blockedTransactionsQueue ∧
        Untouched σ₁ rest (fin.insert T) σ := by
  have hbase := walkRule_waiting ha sch (C := fun _ _ => True)
  refine ⟨fun h hs => ⟨hbase.skip h.1 hs, h.2.skip hs⟩, fun {T rs rest fin σ} h hq hw hs => ?_,
    fun {T r rs rest fin σ σ'} h hC hx => ?_,
    fun {T rest fin σ} h hT => ⟨hbase.leave h.1 hT, h.2.2⟩⟩
  · refine ⟨hbase.enter h.1 hq hw hs, h.2.queue (Dict.mem_of_lookup hq), h.2.queue,
      fun hfin => h.2.waits fun hT => hfin (List.mem_insert_of_mem hT),
      fun hfin => h.2.site fun hT => hfin (List.mem_insert_of_mem hT), fun hw' hs' hT' => ?_⟩
    rcases h.2.free hw' hs' hT' with hfin | hrest
    · exact Or.inl (List.mem_insert_of_mem hfin)
    · rcases List.mem_cons.mp hrest with rfl | hrest
      · exact Or.inl List.mem_insert_self
      · exact Or.inr hrest
  · obtain ⟨es, hout⟩ := exec_outcome hx
    obtain ⟨-, hrT⟩ := h.1.queueable r List.mem_cons_self
    subst hrT
    exact ⟨hbase.exec h.1 hC hx, h.2.1, h.2.2.exec List.mem_insert_self h.2.1 hout⟩

/-! ### Edges to live transactions -/

/-- A transaction that waits for one other waits for a live one. -/
structure Targeted (σ : State) : Prop where
  nodup : ∀ T, (σ.waitsFor T).Nodup
  live : ∀ {T X}, σ.waitsFor T = [X] → X ∈ σ.transactions

namespace Targeted

lemma congr (h : Targeted σ) (hw : ∀ T, σ'.waitsFor T = σ.waitsFor T)
    (ht : ∀ T, T ∈ σ.transactions → T ∈ σ'.transactions) : Targeted σ' :=
  ⟨fun T => hw T ▸ h.nodup T, fun hT => ht _ (h.live (hw _ ▸ hT))⟩

/-- The edges to the transaction that leaves are gone, if they were the only ones. -/
lemma left (h : Targeted σ) (hl : Left T σ σ') : Targeted σ' := by
  refine ⟨hl.nodup_waitsFor h.nodup, fun {T' X} hT => ?_⟩
  rw [hl.waits] at hT
  split_ifs at hT with hgone
  refine hl.mem_transactions.mpr ⟨h.live hT, ?_⟩
  rintro rfl
  exact hgone (Or.inr (by rw [hT]; simp))

lemma exec (h : Targeted σ) (hg : σ.Good) (hout : Outcome o σ r es σ') : Targeted σ' := by
  refine hout.index_induction h
    (fun hs h => h.congr hs.waitsFor fun T => (hs.mem_transactions T).mpr)
    (fun _ hl h => h.left hl)
    (fun ts T b _ => h.congr (fun _ => rfl) fun T' hT' => (AList.mem_insert _).mpr (Or.inr hT'))
    (fun T v s _ _ _ _ _ => ⟨nodup_assignWaitForGraph h.nodup _, fun {T' X} hT => ?_⟩)
    (fun _ _ _ _ _ _ _ => h.congr (fun _ => rfl) fun _ => id)
    (fun _ _ _ _ _ _ _ _ _ => h.congr (fun _ => rfl) fun _ => id)
    (fun _ h => h.congr (fun _ => rfl) fun _ => id) fun _ _ _ hrec => h.congr (fun T => ?_)
      fun T hT => by rwa [hrec.transactions]
  · have hmem : X ∈ (σ.assignWaitForGraph o T (waitOwners (σ.getVariable s v) T)).waitsFor T' :=
      hT ▸ List.mem_singleton_self X
    rcases mem_assignWaitForGraph.mp hmem with hold | ⟨-, hown⟩
    · refine h.live (Container.eq_singleton_of_nodup (h.nodup T') hold fun Y hY => ?_)
      exact List.mem_singleton.mp (hT ▸ mem_assignWaitForGraph.mpr (Or.inl hY))
    · rcases mem_waitOwners hown with ⟨hx, -⟩ | hs
      · exact hg.inv.excl_live (T := X) (s := s) (v := v) hx
      · exact hg.inv.shared_live (T := X) (s := s) (v := v) hs
  · rw [waitsFor, hrec.waitForGraph, waitsFor]

end Targeted

/-! ### A round of the loop -/

/-- Before a round of the loop that drains the queue: the transactions that `E` ends have their end
in the queue, and those in the queue wait for at most one other and for no site. -/
structure Draining (E : TranId → Timestamp → Prop) (σ : State) : Prop where
  ends : EndsQueued E [] σ
  single : ∀ T ∈ σ.blockedTransactionsQueue, (σ.waitsFor T).length ≤ 1
  site : ∀ T ∈ σ.blockedTransactionsQueue, T ∉ σ.siteWaitingMap

namespace Draining

lemma abortTransaction (h : Draining E σ) (ha : σ.abortTransaction o T' = .ok σ') :
    Draining E σ' := by
  obtain ⟨hg, hq, -⟩ := gone_abortTransaction ha
  have hmem : ∀ T ∈ σ'.blockedTransactionsQueue, T ∈ σ.blockedTransactionsQueue := by
    intro T hT
    rw [hq] at hT
    exact (AList.mem_erase.mp hT).2
  refine ⟨h.ends.abortTransaction ha, fun T hT => ?_, fun T hT hs => ?_⟩
  · rw [(left_abortTransaction ha).waits]
    split_ifs
    · exact Nat.zero_le 1
    · exact h.single T (hmem T hT)
  · rw [hg.siteWaitingMap] at hs
    exact h.site T (hmem T hT) hs

lemma settled : Settled (Draining E) where
  graph h hw := ⟨h.ends.congr rfl rfl, fun T hT => hw T ▸ h.single T hT, h.site⟩
  abort h ha := h.abortTransaction ha
  request h := ⟨h.ends.congr rfl rfl, h.single, h.site⟩

end Draining

/-- After a round: whoever did not wait is gone. -/
structure Drained (σ σ' : State) : Prop where
  queue : ∀ T ∈ σ'.blockedTransactionsQueue, T ∈ σ.blockedTransactionsQueue
  waits : ∀ T ∈ σ'.blockedTransactionsQueue, σ'.waitsFor T = σ.waitsFor T ∨ σ'.waitsFor T = []
  site : ∀ T ∈ σ'.blockedTransactionsQueue, T ∈ σ'.siteWaitingMap → T ∈ σ.siteWaitingMap
  free : ∀ T ∈ σ'.blockedTransactionsQueue, σ.waitsFor T = [] → T ∈ σ.siteWaitingMap

/-- **What a round leaves.** -/
theorem drained_of_serve (ha : Admissible l) (hR : Reached l σ) (hW : Waiting (· = -1) σ)
    (hs : State.serveBlocked sch σ = .ok σ') : Drained σ σ' := by
  rw [serveBlocked, Container.bind_eq_ok] at hs
  obtain ⟨⟨fin, σ₂⟩, hwalk, hs⟩ := hs
  cases hs
  have hstart : Untouched σ (sch.walk.visit σ.blockedTransactionsQueue.keys) [] σ :=
    .start fun T hT => sch.walk.mem_visit.mpr (AList.mem_keys.mp hT)
  have hI := ((walkRule_untouched ha sch σ).walk ⟨.start hR hW, hstart⟩
    (fun _ _ _ => trivial) hwalk).2
  have hmem : ∀ {T}, T ∈ (sch.finish.visit fin).foldl (fun q T => q.erase T)
      σ₂.blockedTransactionsQueue → T ∈ σ₂.blockedTransactionsQueue ∧ T ∉ fin := by
    intro T hT
    rw [← AList.lookup_isSome, Dict.lookup_foldl_erase] at hT
    split_ifs at hT with hfin
    · cases hT
    · exact ⟨AList.lookup_isSome.mp hT, fun h => hfin (sch.finish.mem_visit.mpr h)⟩
  refine ⟨fun T hT => hI.queue (hmem hT).1, fun T hT => hI.waits (hmem hT).2,
    fun T hT => hI.site (hmem hT).2, fun T hT hw => ?_⟩
  by_contra hs
  rcases hI.free hw hs (hmem hT).1 with hfin | hnil
  · exact (hmem hT).2 hfin
  · cases hnil

/-- **A round serves someone**, if there is no deadlock. -/
theorem Draining.exists_free (h : Draining E σ) (ht : Targeted σ)
    (hc : Container.Acyclic σ.WaitsFor)
    (hE : ∀ T ∈ σ.transactions, ∃ ts, E T ts) (hne : σ.blockedTransactionsQueue.keys ≠ []) :
    ∃ T ∈ σ.blockedTransactionsQueue, σ.waitsFor T = [] := by
  obtain ⟨T, hT, hsink⟩ := hc.exists_sink hne
  have hq : T ∈ σ.blockedTransactionsQueue := AList.mem_keys.mpr hT
  refine ⟨T, hq, ?_⟩
  by_contra hw
  obtain ⟨X, hX⟩ := List.exists_mem_of_ne_nil _ hw
  obtain ⟨Y, hY⟩ := List.length_eq_one_iff.mp
    (le_antisymm (h.single T hq) (List.length_pos_of_mem hX))
  -- the transaction waits for a live one, whose end is in the queue
  have hlive := ht.live hY
  obtain ⟨ts, hts⟩ := hE Y hlive
  obtain ⟨-, rs, hrs, -⟩ := h.ends Y ts hlive hts
  refine hsink Y (AList.mem_keys.mp (Dict.mem_of_lookup hrs)) (.single ?_)
  rw [WaitsFor, hY]
  exact List.mem_singleton_self Y

end State

section Runs

variable {l : List Feed} {σ : State}

/-- The ends of the instructions so far, with that of the next one. -/
lemma State.EndsQueued.snoc {fin : List TranId} {x : Feed} {r : Request}
    (h : State.EndsQueued (fun T ts => Fed l (.finish ts T)) fin σ)
    (hx : x.insr.request x.timestamp = .ok r)
    (hnew : ∀ T ts, r = .finish ts T → T ∈ σ.transactions → T ∉ fin ∧ σ.Queued (.finish ts T)) :
    State.EndsQueued (fun T ts => Fed (l ++ [x]) (.finish ts T)) fin σ :=
  h.mono fun T ts hT => ((fed_snoc hx).mp hT).imp id (hnew T ts)

/-- A call whose request is next keeps the ends of live transactions in the queue. -/
lemma State.EndsQueued.feed {σ₁ : State} {x : Feed} {r : Request} (ha : Admissible (l ++ [x]))
    (hr : run l = .ok σ₁) (hreq : x.insr.request x.timestamp = .ok r)
    (h : State.EndsQueued (fun T ts => Fed l (.finish ts T)) [] σ₁)
    (hexec : State.executeInstructions x.schedule { σ₁ with request := some r } = .ok σ) :
    State.EndsQueued (fun T ts => Fed (l ++ [x]) (.finish ts T)) [] σ := by
  obtain ⟨hl, hx⟩ := (admissible_snoc l x).mp ha
  have hE := State.EndsQueued.settled.request (q := some r) h
  rcases State.executeInstructions_cases hexec with ⟨r', τ, hτ, hr', hst, rfl⟩ |
    ⟨r', τ, σ₂, hd, hb, hex, rfl⟩ | ⟨r', τ, hτ, hr', hst, hb, hrw, rfl⟩ | ⟨σ₂, hw, hs⟩
  · -- the request is dropped: its transaction is not live
    obtain ⟨hEτ, hq⟩ := State.EndsQueued.settled.resolveDeadlocks hE hτ
    cases hr'.symm.trans hq
    refine (hEτ.snoc hreq fun T ts heq hlive => ?_).congr rfl rfl
    subst heq
    simp [State.isStale, Request.transactionId, hlive] at hst
  · -- it is executed although its transaction is blocked: it is a read or write
    obtain ⟨hEτ, hq⟩ := State.EndsQueued.settled.calledDirectly hE hd
    cases hq
    have hrw := hd.2.2.2 hb
    obtain ⟨es, hout⟩ := State.exec_outcome hex
    refine ((hEτ.exec hout fun hbegin => ?_).snoc hreq fun T ts heq => ?_).congr rfl rfl
    · cases r with
      | create => cases hrw
      | _ => cases hbegin
    · subst heq
      cases hrw
  · -- it enters the queue, where nothing has its timestamp
    obtain ⟨hEτ, hq⟩ := State.EndsQueued.settled.resolveDeadlocks hE hτ
    cases hr'.symm.trans hq
    have hK := (known_invariant fun _ _ => True).run hl (by simp) hr
    have hset := (known_invariant fun _ _ => True).settled l hl
    obtain ⟨hτK, -⟩ := hset.resolveDeadlocks (hset.request (q := some _) hK) hτ
    refine ((hEτ.enqueue r).snoc hreq fun T ts heq _ => ?_).congr rfl rfl
    subst heq
    refine ⟨List.not_mem_nil, State.queued_addRequest fun rs b hrs hb heq => ?_⟩
    exact absurd heq (Executes.lt_of_pending hx hreq (hτK.queued hrs hb).1.fed).ne
  · -- it is executed, if there is one, and the blocked transactions are served
    rcases hw with ⟨hτ, hn⟩ | ⟨r', τ, hd, hb, hex⟩
    · rw [State.request_resolved hτ] at hn
      cases hn
    · obtain ⟨hEτ, hq⟩ := State.EndsQueued.settled.calledDirectly hE hd
      cases hq
      obtain ⟨es, hout⟩ := State.exec_outcome hex
      have hE₂ : State.EndsQueued (fun T ts => Fed (l ++ [x]) (.finish ts T)) [] σ₂ := by
        refine (hEτ.exec hout fun hbegin ts hfed => ?_).snoc hreq fun T ts heq hlive => ?_
        · obtain ⟨y, hy, hyr⟩ := hfed
          exact hx.nothing_after_end _ (tranId_of_begun (begun_of_request hreq hbegin)) y
            hy (ended_of_request hyr)
        · subst heq
          exact absurd hlive hout.not_live_of_finish
      have hcall : CallOf (l ++ [x]) x.schedule { σ₁ with request := some r } :=
        Or.inl ⟨l, x, [], σ₁, r, rfl, hr, hreq, rfl, rfl⟩
      obtain ⟨l', ha', hR, hW⟩ := (waiting_invariant fun _ _ => True).walkStarts ha (by simp)
        hcall (Or.inr ⟨r, τ, hd, hb, hex⟩)
      exact hE₂.serve ha' hR hW hs

/-- **The end of a live transaction is in the queue**, once it was issued. -/
theorem endsQueued_run (ha : Admissible l) (hr : run l = .ok σ) :
    State.EndsQueued (fun T ts => Fed l (.finish ts T)) [] σ := by
  induction l using List.reverseRecOn generalizing σ with
  | nil =>
      cases hr
      intro T ts hT
      simp [State.initial] at hT
  | append_singleton l x ih =>
      obtain ⟨hl, -⟩ := (admissible_snoc l x).mp ha
      rw [run_snoc, Container.bind_eq_ok] at hr
      obtain ⟨σ₁, h1, hf⟩ := hr
      obtain ⟨r, hreq, hexec⟩ := feed_eq_ok.mp hf
      exact (ih hl h1).feed ha h1 hreq hexec

end Runs

/-- **A transaction that waits for one other waits for a live one.** -/
theorem targeted_invariant (C : Request → State → Prop) :
    ServingInvariant C fun _ => State.Targeted where
  initial := ⟨fun T => by simp [State.initial, State.waitsFor],
    fun hT => by simp [State.initial, State.waitsFor] at hT⟩
  graph h hw := h.congr hw fun _ => id
  request h := h.congr (fun _ => rfl) fun _ => id
  abort _ h ha := h.left (State.left_abortTransaction ha)
  dequeue h := h.congr (fun _ => rfl) fun _ => id
  enqueue _ _ _ h _ _ _ := h.congr (fun _ => rfl) fun _ => id
  exec _ _ hR h _ _ hout := h.exec hR.good hout
  mono _ h := h

end RepCRec
