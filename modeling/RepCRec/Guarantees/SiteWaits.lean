import RepCRec.Engine.SiteWaits
import RepCRec.Guarantees.Replication

/-!
The waiting for sites, in runs that may begin a transaction again when it is not live any more
(`Reusing`). The site waiting map holds live transactions alone, each with a blocked request for a
variable that is not readable at the site, as long as no step ends one of them and no read taken
from the queue starts to wait (`site_waits_real`). The engine takes an entry away when the site
recovers, but not when its transaction is aborted: a transaction that is begun again is then queued
behind the wait of the earlier one (`leftover_wait`).
-/

namespace RepCRec

open Container (IterOrder)

/-! ### Runs that reuse transaction ids -/

/-- The last begin or end of the transaction is a begin. -/
def opened (past : List Feed) (T : TranId) : Bool :=
  past.foldl (fun b x => if x.insr.begun? = some T then true
    else if x.insr.ended? = some T then false else b) false

/-- The instruction may follow the past: a transaction is begun while it is not live, and accesses
and ends stand between a begin and the end that follows. -/
structure ReusingNext (past : List Feed) (x : Feed) : Prop where
  later : ∀ y ∈ past, y.timestamp < x.timestamp
  inRange : x.insr.inRange = true
  begin_dead : ∀ T ∈ x.insr.begun?, ∀ σ ∈ (run past).toOption, T ∉ σ.transactions
  access_opened : ∀ T ∈ x.insr.accessing?, opened past T = true
  end_opened : ∀ T ∈ x.insr.ended?, opened past T = true

instance (past : List Feed) (x : Feed) : Decidable (ReusingNext past x) :=
  decidable_of_iff
    ((∀ y ∈ past, y.timestamp < x.timestamp) ∧ x.insr.inRange = true ∧
      (∀ T ∈ x.insr.begun?, ∀ σ ∈ (run past).toOption, T ∉ σ.transactions) ∧
      (∀ T ∈ x.insr.accessing?, opened past T = true) ∧
      ∀ T ∈ x.insr.ended?, opened past T = true)
    ⟨fun ⟨h1, h2, h3, h4, h5⟩ => ⟨h1, h2, h3, h4, h5⟩,
      fun ⟨h1, h2, h3, h4, h5⟩ => ⟨h1, h2, h3, h4, h5⟩⟩

/-- The instructions may follow the past, one after the other. -/
def ReusingFrom : List Feed → List Feed → Prop
  | _, [] => True
  | past, x :: l => ReusingNext past x ∧ ReusingFrom (past ++ [x]) l

instance decidableReusingFrom : ∀ past l, Decidable (ReusingFrom past l)
  | _, [] => inferInstanceAs (Decidable True)
  | past, x :: l =>
      have := decidableReusingFrom (past ++ [x]) l
      inferInstanceAs (Decidable (ReusingNext past x ∧ ReusingFrom (past ++ [x]) l))

/-- A run in which a transaction may be begun again when it is not live any more. -/
def Reusing (l : List Feed) : Prop := ReusingFrom [] l

instance (l : List Feed) : Decidable (Reusing l) :=
  inferInstanceAs (Decidable (ReusingFrom [] l))

lemma ReusingFrom.next {past l₁ l₂ : List Feed} {x : Feed}
    (h : ReusingFrom past (l₁ ++ x :: l₂)) : ReusingNext (past ++ l₁) x := by
  induction l₁ generalizing past with
  | nil => simpa using h.1
  | cons y l₁ ih => simpa using ih h.2

lemma Reusing.next {l₁ l₂ : List Feed} {x : Feed} (h : Reusing (l₁ ++ x :: l₂)) :
    ReusingNext l₁ x := by simpa using ReusingFrom.next h

/-- The variable or site of the instruction that is fed exists, and the blocked requests are older
than the instruction. -/
lemma Reusing.fedUnder {l : List Feed} (h : Reusing l) :
    FedUnder (fun x σ => x.insr.inRange = true ∧
      σ.QueueAll fun _ r => r.timestamp < x.timestamp) l := by
  rintro l₁ x l₂ σ rfl hr
  refine ⟨h.next.inRange, fun T rs r hq hmem => ?_⟩
  obtain ⟨hqueue, -⟩ := (runRule_queuedFrom l₁).reaches (fedUnder_mem l₁) (fun _ _ _ => trivial)
    (.run hr)
  obtain ⟨y, hy, hreq⟩ := hqueue T rs r hq hmem
  rw [timestamp_of_request hreq]
  exact h.next.later y hy

/-! ### Real waiters -/

namespace State

variable {σ : State}

/-- The transactions that wait for sites are live, and each has a blocked request for a variable
with a copy at the site that is not readable there. -/
def RealWaiters (σ : State) : Prop :=
  ∀ T s, σ.siteWaitingMap.lookup T = some s → T ∈ σ.transactions ∧
    ∃ r v, σ.Queued r ∧ r.access? = some (T, v) ∧ s ∈ copySites v ∧ σ.isReadAvailable s v = false

lemma SiteWaits.real (h : SiteWaits σ) : σ.RealWaiters := fun T s hl => by
  obtain ⟨hlive, ts, v, hq, ⟨hv, hno⟩, rfl⟩ := h.waits T s hl
  exact ⟨hlive, .read ts T v, v, hq, rfl, mem_copySites.mpr (home_mem_copies v), hno⟩

lemma siteWaits_initial : SiteWaits State.initial where
  recorded T t h := by cases h
  odd _ _ _ := rfl
  waits T s h := by cases h

end State

/-- The waiting is kept by all steps that end no transaction that waits for a site. -/
lemma guardedRule_siteWaits : GuardedRule State.SparesSiteWaits (fun r τ => ¬τ.EndsSiteWait r)
    State.SettlesSites State.SiteWaits (fun _ => State.SiteWaits)
    fun x σ => x.insr.inRange = true ∧ σ.QueueAll fun _ r => r.timestamp < x.timestamp where
  initial := State.siteWaits_initial
  request h := ⟨h.toSited.congr rfl rfl, h.waits⟩
  resolved h hs hτ := h.resolved hs hτ
  walks := State.walks_siteWaits
  pre_request _ h := h
  pre_resolved {x sch σ τ} _ h hτ := by
    have hk : State.Settled fun σ => σ.QueueAll fun _ r => r.timestamp < x.timestamp :=
      ⟨fun h _ => h, fun h ha => h.abortTransaction ha, fun h => h⟩
    exact ⟨h.1, (hk.resolveDeadlocks h.2 hτ).1⟩
  leads {x r} hr := by
    refine ⟨fun {o σ σ'} h hend _ _ hx => ?_, fun h _ _ _ => h.1.enqueue⟩
    obtain ⟨es, hout⟩ := State.exec_outcome hx
    refine h.1.exec hout hend fun _ => ⟨ne_missing_of_inRange h.2.1 hr, ?_⟩
    rw [timestamp_of_request hr]
    exact h.2.2

section Runs

variable {l : List Feed}

/-- **The waiters for sites are real** in every state that is reached, if no transaction ends that
waits for a site (by the resolution of deadlocks, or by a request that is executed), and no read
that is taken from the queue has to wait for its site. Then a transaction that is begun, for the
first time or again, does not wait for a site. -/
theorem site_waits_real (hl : Reusing l)
    (hspared : ∀ sch σ, CallOf l sch σ → State.SparesSiteWaits sch σ)
    (hend : ∀ r τ, CalledDuring l r τ → ¬τ.EndsSiteWait r)
    (htaken : ∀ r τ, TakenDuring l r τ → ¬τ.NeedsSite r) :
    (∀ σ, Reaches l σ → σ.RealWaiters) ∧
    ∀ sch σ ts T b τ, CallOf l sch σ → σ.request = some (.create ts T b) →
      σ.resolved sch = .ok τ → τ.isTransactionWaitingForSite T = false := by
  have hA : ∀ r τ, DirectDuring l r τ → ¬τ.EndsSiteWait r := fun r τ hd => hend r τ hd.called
  have hC : ∀ r τ, TakenDuring l r τ → State.SettlesSites r τ := fun r τ ht =>
    ⟨hend r τ ht.called, htaken r τ ht⟩
  have hreach : ∀ {σ}, Reaches l σ → State.SiteWaits σ ∧ σ.request = none := fun hr =>
    guardedRule_siteWaits.reaches hl.fedUnder hspared hA hC hr
  refine ⟨fun σ hr => (hreach hr).1.real, fun sch σ ts T b τ hc hreq hτ => ?_⟩
  rcases hc with ⟨l₁, x, l₂, σ₀, r, rfl, hrun, hr, rfl, rfl⟩ | ⟨hr, -⟩
  · cases hreq
    have hbegun := begun_of_request hr rfl
    have hdead := hl.next.begin_dead T hbegun σ₀ (by rw [hrun]; rfl)
    have hσ₀ : State.SiteWaits σ₀ := guardedRule_siteWaits.run hl.fedUnder.of_append
      (fun sch σ hc => hspared sch σ (Or.inl (hc.append _)))
      (fun sch σ r τ hc hd => hA r τ ⟨sch, σ, Or.inl (hc.append _), hd⟩)
      (fun sch σ r τ hc hq => hC r τ ⟨sch, σ, Or.inl (hc.append _), hq⟩) hrun
    refine decide_eq_false fun hT => hdead (hσ₀.live ?_)
    rwa [(State.sites_resolved hτ).1] at hT
  · rw [(hreach hr).2] at hreq
    cases hreq

/-- A transaction waits for a site, which recovers, and is begun again after its end. -/
def reusedRun : List Feed :=
  inOrder Schedule.stored
    [.fail 2, .begin 1, .read 1 1, .recover 2, .finish 1, .begin 1, .read 1 1, .finish 1]

theorem site_waits_real_reusedRun :
    (∃ σ, run (reusedRun.take 3) = .ok σ ∧ 1 ∈ σ.siteWaitingMap) ∧
    ∀ σ, Reaches reusedRun σ → σ.RealWaiters := by
  obtain ⟨hspared, hdirect, htaken⟩ := forall_of_feedCalls (l := reusedRun)
    (D := State.SparesSiteWaits) (A := fun r τ => ¬τ.EndsSiteWait r)
    (C := fun r τ => ¬τ.EndsSiteWait r ∧ ¬τ.NeedsSite r) (by decide +kernel) (by decide +kernel)
  obtain ⟨σ, hσ, hT⟩ := exists_ok_of_eval (x := run (reusedRun.take 3))
    (f := fun σ => decide (1 ∈ σ.siteWaitingMap)) (a := true) (by decide +kernel)
  exact ⟨⟨σ, hσ, of_decide_eq_true hT⟩, (site_waits_real (by decide +kernel) hspared
    (fun r τ hc => hc.cases.elim (hdirect r τ) fun ht => (htaken r τ ht).1)
    fun r τ ht => (htaken r τ ht).2).1⟩

/-- A transaction that waits for one site has written to another one, which fails. -/
def leftoverRun : List Feed :=
  inOrder Schedule.stored
    [.fail 2, .begin 1, .write 1 3 5, .read 1 1, .fail 4, .begin 1]

/-- **A wait is left over** from a transaction that was aborted, and the begin of the next one with
its id is queued. -/
theorem leftover_wait : Reusing leftoverRun ∧ ∃ σ, Reaches leftoverRun σ ∧ ¬σ.RealWaiters ∧
    1 ∈ σ.siteWaitingMap ∧ 1 ∉ σ.transactions ∧
    σ.blockedTransactionsQueue.lookup 1 = some [.create 5 1 false] := by
  obtain ⟨σ, hσ, hf⟩ := exists_ok_of_eval (x := run leftoverRun)
    (f := fun σ => decide (1 ∈ σ.siteWaitingMap ∧ 1 ∉ σ.transactions ∧
      σ.blockedTransactionsQueue.lookup 1 = some [.create 5 1 false])) (a := true)
    (by decide +kernel)
  obtain ⟨hT, hdead, hq⟩ := of_decide_eq_true hf
  refine ⟨by decide +kernel, σ, .run hσ, fun h => ?_, hT, hdead, hq⟩
  obtain ⟨s, hs⟩ := Dict.exists_lookup hT
  exact hdead (h 1 s hs).1

end Runs

end RepCRec
