import RepCRec.Guarantees.Exceptions
import RepCRec.Guarantees.QueueWalk
import RepCRec.Guarantees.SiteWaits
import RepCRec.Guarantees.Snapshots
import RepCRec.Guarantees.Victims
import RepCRec.Refinement.Draining

/-!
The loop that drains the queue after the last instruction. A round fails only with an exception, or
where a request that it executes aborts a transaction that is in the queue (`round_ok`). When every
site that failed has recovered, no one waits for a site (`down_run`). When no one in the queue waits
for several transactions once the deadlocks are resolved, each round serves someone, and the loop
ends (`drains_of_unstuck`).
-/

namespace RepCRec

open Container (IterOrder Acyclic bind_eq_ok bind_eq_error ok_bind)

namespace State

variable {σ σ' τ : State} {o : IterOrder} {r : Request} {T : TranId} {l l' : List Feed}
  {sch : Schedule} {e : Fault} {es : List Event} {E : TranId → Timestamp → Prop}

/-! ### Faults of a round -/

section Rule

variable {C : Request → State → Prop} {I : List TranId → List TranId → State → Prop}
  {J : TranId → List Request → List TranId → List TranId → State → Prop} {rest fin : List TranId}

/-- The entry of a transaction is not erased while its requests are executed. -/
lemma WalkRule.kept (h : WalkRule sch C I J)
    (hstand : ∀ {T rs rest fin σ}, J T rs rest fin σ → T ∈ σ.blockedTransactionsQueue)
    {rs : List Request} {b b' : Bool} (hJ : J T rs rest fin σ)
    (hC : ∀ r τ, CalledInSet sch rs σ r τ → C r τ)
    (hx : execBlocked sch T rs b σ = .ok (b', σ')) : b' = b := by
  induction rs generalizing σ b with
  | nil =>
      cases hx
      rfl
  | cons r rs ih =>
      rw [execBlocked, bind_eq_ok] at hx
      obtain ⟨σ₁, h1, hx⟩ := hx
      have hJ' := h.exec hJ (hC r σ (Or.inl ⟨rfl, rfl⟩)) h1
      have hb := ih hJ' (fun r' τ hc => hC r' τ (Or.inr ⟨σ₁, h1, hc⟩)) hx
      rwa [decide_eq_true (hstand hJ'), Bool.and_true] at hb

/-- A walk that stands on its entry fails where a request fails. -/
lemma WalkRule.called_of_error (h : WalkRule sch C I J)
    (hstand : ∀ {T rs rest fin σ}, J T rs rest fin σ → T ∈ σ.blockedTransactionsQueue)
    {ks : List TranId} (hI : I ks fin σ) (hC : ∀ r τ, CalledInWalk sch ks σ r τ → C r τ)
    (hx : walkBlocked sch ks fin σ = .error e) :
    ∃ r τ, CalledInWalk sch ks σ r τ ∧ τ.exec (sch.exec r.timestamp) r = .error e := by
  induction ks generalizing σ fin with
  | nil => cases hx
  | cons T ks ih =>
      rw [walkBlocked] at hx
      simp only [CalledInWalk] at hC ⊢
      cases hq : σ.blockedTransactionsQueue.lookup T with
      | none =>
          simp only [hq] at hx hC ⊢
          exact ih (h.skip hI (Or.inl hq)) hC hx
      | some rs =>
          simp only [hq] at hx hC ⊢
          split_ifs at hx hC ⊢ with hw
          · simp only [Bool.and_eq_true, Bool.not_eq_true'] at hw
            have hJ := h.enter hI hq hw.1 hw.2
            have hCs : ∀ r τ, CalledInSet sch rs σ r τ → C r τ := fun r τ hc => hC r τ (Or.inl hc)
            rcases bind_eq_error.mp hx with hx | ⟨⟨b, σ₁⟩, h1, hx⟩
            · obtain ⟨r, τ, hc, hx⟩ := calledInSet_of_error hx
              exact ⟨r, τ, Or.inl hc, hx⟩
            · have hb : b = true := h.kept hstand hJ hCs h1
              subst hb
              obtain ⟨hJ', hT⟩ := h.set hJ hCs (fun _ => Dict.mem_of_lookup hq) h1
              obtain ⟨r, τ, hc, hx⟩ := ih (h.leave hJ' hT)
                (fun r τ hc => hC r τ (Or.inr ⟨σ₁, h1, hc⟩)) hx
              exact ⟨r, τ, Or.inr ⟨σ₁, h1, hc⟩, hx⟩
          · simp only [Bool.and_eq_true, Bool.not_eq_true', not_and_or, Bool.not_eq_false] at hw
            exact ih (h.skip hI (Or.inr hw)) hC hx

end Rule

/-- The execution of a request that is taken from the queue fails with an exception only. -/
lemma Served.isException (h : Served l r σ) (ha : Admissible l) (hs : Stamped l' σ)
    (hx : σ.exec o r = .error e) : e.IsException := by
  have hg := h.reached.good
  have hok : ¬∃ σ', σ.exec o r = .ok σ' := fun ⟨σ', h1⟩ => by simp [hx] at h1
  cases r with
  | write ts T v x =>
      by_cases hT : T ∈ σ.transactions
      · exact absurd (exists_exec_write hT) hok
      · obtain ⟨-, h1⟩ := (execWrite_of_dead hT (hg.apart T v) (hg.not_holdsLock hT)).resolve_right
          fun h => hok h.2
        cases hx.symm.trans h1
        exact Or.inr rfl
  | read ts T v =>
      by_cases hT : T ∈ σ.transactions
      · obtain ⟨t, ht⟩ := Dict.exists_lookup hT
        cases hro : t.isReadOnly with
        | true =>
            -- every copy has a version for a live transaction
            obtain ⟨-, s, hnone⟩ := (execRead_of_isReadOnly ht hro).resolve_left hok
            obtain ⟨x, hx⟩ := hs.exists_getValue ht s v
            rw [hx] at hnone
            cases hnone
        | false =>
            obtain ⟨-, h1⟩ := (execRead_of_not_isReadOnly ht hro (hg.apart T v)).resolve_right
              fun h => hok h.2
            cases hx.symm.trans h1
            exact Or.inl rfl
      · rw [exec, execRead, getTransaction_of_dead hT] at hx
        cases hx
        exact Or.inr rfl
  | finish ts T =>
      by_cases hT : T ∈ σ.transactions
      · exact absurd (exists_exec_finish hT) hok
      · rw [exec, execFinish, commit, getTransaction_of_dead hT] at hx
        cases hx
        exact Or.inr rfl
  | fail ts s => exact absurd exists_exec_fail hok
  | missing ts m => exact absurd rfl (h.queueable.fed.ne_missing ha ts m)
  | _ => exact absurd ⟨_, rfl⟩ hok

/-! ### Sites that are down -/

/-- The sites that are down, and those that transactions wait for, are in `F`. -/
structure Down (F : SiteId → Prop) (σ : State) : Prop extends Sited σ where
  down : ∀ s, σ.isWriteAvailable s = false → F s
  waits : ∀ T s, σ.siteWaitingMap.lookup T = some s → F s

namespace Down

variable {F F' : SiteId → Prop}

lemma congr (h : Down F σ) (hs : σ'.sites = σ.sites) (ht : σ'.transactions = σ.transactions)
    (hw : σ'.siteWaitingMap = σ.siteWaitingMap) : Down F σ' where
  toSited := h.toSited.congr ht hs
  down s hdown := by
    rw [isWriteAvailable, hs] at hdown
    exact h.down s hdown
  waits T s hl := h.waits T s (hw ▸ hl)

lemma mono (h : Down F σ) (hF : ∀ s, F s → F' s) : Down F' σ :=
  ⟨h.toSited, fun s hs => hF s (h.down s hs), fun T s hl => hF s (h.waits T s hl)⟩

lemma settled : Settled (Down F) where
  graph h _ := h.congr rfl rfl rfl
  abort h ha := by
    have hg := (gone_abortTransaction ha).1
    exact ⟨h.toSited.abortTransaction ha, fun s hs => h.down s ((hg.up s).symm.trans hs),
      fun T s hl => h.waits T s (hg.siteWaitingMap ▸ hl)⟩
  request h := h.congr rfl rfl rfl

/-- A request takes the site that it recovers out of the set, and adds the site that it fails. -/
lemma exec (h : Down F σ) (hout : Outcome o σ r es σ') (hm : ∀ ts m, r ≠ .missing ts m)
    (hF : ∀ s, F s → (∀ ts, r ≠ .recover ts s) → F' s) (hfail : ∀ ts s, r = .fail ts s → F' s) :
    Down F' σ' where
  toSited := h.toSited.exec hout
  down s hs := by
    have hother : (∀ ts, r ≠ .recover ts s) → σ'.isWriteAvailable s = σ.isWriteAvailable s → F' s :=
      fun hrec hsame => hF s (h.down s (hsame ▸ hs)) hrec
    by_cases hf : ∃ ts s', r = .fail ts s'
    · obtain ⟨ts, s', rfl⟩ := hf
      cases hout with
      | failed hx =>
          have hup := (available_of_failed hx s).1
          split_ifs at hup with heq
          · exact hfail ts s (by rw [heq])
          · exact hother (by simp) hup
      | unavailable ha => cases ha
      | waitsForLock ha => cases ha
    · by_cases hrec : ∃ ts s', r = .recover ts s'
      · obtain ⟨ts, s', rfl⟩ := hrec
        cases hout with
        | recovered =>
            have hup := (available_of_recovered σ o s' s).1
            split_ifs at hup with heq
            · rw [hup] at hs
              cases hs
            · refine hother (fun ts' h' => heq ?_) hup
              cases h'
              rfl
        | unavailable ha => cases ha
        | waitsForLock ha => cases ha
      · exact hother (fun ts h' => hrec ⟨ts, s, h'⟩)
          (hout.available (fun ts s heq => hf ⟨ts, s, heq⟩) (fun ts s heq => hrec ⟨ts, s, heq⟩) s).1
  waits T s hl := by
    rcases hout.siteWaitingMap_cases hl with ⟨hold, hrec⟩ | ⟨ts, v, rfl, ⟨hv, hno⟩, rfl⟩ |
      ⟨ts, v, rfl, -⟩
    · exact hF s (h.waits T s hold) hrec
    · refine hF v.home (h.down v.home ?_) (by simp)
      rw [← Bool.not_eq_true]
      intro hup
      rw [h.odd v hv hup] at hno
      cases hno
    · exact absurd rfl (hm ts _)

end Down

/-! ### A round -/

/-- Whoever is in the queue and waits for several transactions is a victim of the next deadlocks. -/
def Unstuck (σ : State) : Prop :=
  ∀ T ∈ σ.blockedTransactionsQueue, 2 ≤ (σ.waitsFor T).length → σ.Sacrificed T

/-- When the deadlocks are resolved, whoever is in the queue waits for at most one transaction. -/
lemma Thinned.draining (h : Thinned σ τ) (hn : Targeted τ) (hE : EndsQueued E [] τ)
    (hlive : ∀ T ∈ τ.transactions, ¬σ.Sacrificed T) (hun : σ.Unstuck)
    (hsite : ∀ T ∈ σ.blockedTransactionsQueue, T ∉ σ.siteWaitingMap) : Draining E τ where
  ends := hE
  single T hT := by
    obtain ⟨hq, hgone⟩ := h.queue hT
    by_contra hlen
    have hle : (τ.waitsFor T).length ≤ (σ.waitsFor T).length :=
      ((hn.nodup T).subperm fun _ => h.waits).length_le
    have hs := hun T hq (by omega)
    exact hlive T (hgone hs.live) hs
  site T hT := by
    rw [h.site]
    exact hsite T (h.queue hT).1

lemma Thinned.length_le (h : Thinned σ τ) :
    τ.blockedTransactionsQueue.keys.length ≤ σ.blockedTransactionsQueue.keys.length := by
  have hsub : τ.blockedTransactionsQueue.keys ⊆ σ.blockedTransactionsQueue.keys := fun T hT =>
    AList.mem_keys.mp (h.queue (AList.mem_keys.mpr hT)).1
  exact ((AList.keys_nodup _).subperm hsub).length_le

lemma Drained.keys_eq_nil (h : Drained σ σ') (hn : σ.blockedTransactionsQueue.keys = []) :
    σ'.blockedTransactionsQueue.keys = [] := by
  refine List.eq_nil_iff_forall_not_mem.mpr fun T hT => ?_
  have hT' := AList.mem_keys.mp (h.queue T (AList.mem_keys.mpr hT))
  rw [hn] at hT'
  cases hT'

/-- A round in which someone does not wait makes the queue shorter. -/
lemma Drained.length_lt (h : Drained σ σ') (hT : T ∈ σ.blockedTransactionsQueue)
    (hw : σ.waitsFor T = []) (hs : T ∉ σ.siteWaitingMap) :
    σ'.blockedTransactionsQueue.keys.length < σ.blockedTransactionsQueue.keys.length := by
  have hnot : T ∉ σ'.blockedTransactionsQueue.keys := fun hT' =>
    hs (h.free T (AList.mem_keys.mpr hT') hw)
  have hnodup : (T :: σ'.blockedTransactionsQueue.keys).Nodup :=
    List.nodup_cons.mpr ⟨hnot, AList.keys_nodup _⟩
  have hsub : T :: σ'.blockedTransactionsQueue.keys ⊆ σ.blockedTransactionsQueue.keys := by
    intro T' hT'
    rcases List.mem_cons.mp hT' with rfl | hT'
    · exact AList.mem_keys.mp hT
    · exact AList.mem_keys.mp (h.queue T' (AList.mem_keys.mpr hT'))
  exact (hnodup.subperm hsub).length_le

/-- After a round, the next one may begin. -/
lemma Draining.serve (ha : Admissible l) (hR : Reached l σ) (hW : Waiting (· = -1) σ)
    (h : Draining E σ) (hs : State.serveBlocked sch σ = .ok σ') : Draining E σ' := by
  have hd := drained_of_serve ha hR hW hs
  refine ⟨h.ends.serve ha hR hW hs, fun T hT => ?_, fun T hT hsite => ?_⟩
  · rcases hd.waits T hT with heq | hnil
    · exact heq ▸ h.single T (hd.queue T hT)
    · simp [hnil]
  · exact h.site T (hd.queue T hT) (hd.site T hT hsite)

/-- The loop that drains the queue ends, and leaves it empty. -/
def Drains (sch : ℕ → Schedule) (σ : State) : Prop :=
  ∃ n σ', State.drain sch n σ = .ok (true, σ') ∧ σ'.blockedTransactionsQueue.keys = []

/-- No request that a round of the loop takes from the queue aborts a transaction that is in the
queue. -/
def SparesQueued (sch : ℕ → Schedule) (σ : State) : Prop :=
  ∀ n σ' r τ, drain sch n σ = .ok (false, σ') → CalledFromQueue (sch n) σ' r τ → ¬τ.AbortsQueued r

lemma drain_succ {sch : ℕ → Schedule} {n : ℕ} (hf : σ.isAllInstructionsFinished = false)
    (hx : executeInstructions (sch 0) σ = .ok σ') :
    drain sch (n + 1) σ = drain (fun i => sch (i + 1)) n σ' := by
  rw [drain, hf, if_neg Bool.false_ne_true, hx, ok_bind]

lemma Drains.round {sch : ℕ → Schedule} (hf : σ.isAllInstructionsFinished = false)
    (hx : executeInstructions (sch 0) σ = .ok σ') (h : Drains (fun i => sch (i + 1)) σ') :
    Drains sch σ := by
  obtain ⟨n, σ₂, hd, hq⟩ := h
  exact ⟨n + 1, σ₂, (drain_succ hf hx).trans hd, hq⟩

lemma isAllInstructionsFinished_iff (hr : σ.request = none) :
    σ.isAllInstructionsFinished = true ↔ σ.blockedTransactionsQueue.keys = [] := by
  rw [isAllInstructionsFinished, hr]
  simp

end State

section Runs

variable {l : List Feed} {σ σ' : State} {sch : Schedule}

/-- A walk over requests of transactions that were begun leaves the sites. -/
lemma State.Down.serve {F : SiteId → Prop} (ha : Admissible l) (hno : ¬Begun l (-1))
    (h : σ.Down F) (hR : State.Reached l σ) (hW : State.Waiting (· = -1) σ)
    (hs : State.serveBlocked sch σ = .ok σ') : σ'.Down F := by
  rw [State.serveBlocked, bind_eq_ok] at hs
  obtain ⟨⟨fin, σ₂⟩, hwalk, hs⟩ := hs
  cases hs
  have hrule := (State.walkRule_waiting ha sch (C := fun _ _ => True)).and (P := State.Down F)
    fun {T r rs rest fin σ σ'} hJ hD _ hx => by
      obtain ⟨es, hout⟩ := State.exec_outcome hx
      have hr := (hJ.queueable r List.mem_cons_self).1
      refine hD.exec hout (hr.fed.ne_missing ha) (fun s hs _ => hs) fun ts s heq => ?_
      subst heq
      exact absurd hr.begun hno
  exact (hrule.walk ⟨.start hR hW, h⟩ (fun _ _ _ => trivial) hwalk).2.congr rfl rfl rfl

/-- The last instruction that fails or recovers the site fails it. -/
def LeftFailed (l : List Feed) (s : SiteId) : Prop :=
  ∃ ts, Fed l (.fail ts s) ∧ ∀ ts', Fed l (.recover ts' s) → ts' ≤ ts

lemma LeftFailed.snoc {x : Feed} {r : Request} {s : SiteId} (h : LeftFailed l s)
    (hx : x.insr.request x.timestamp = .ok r) (hrec : ∀ ts, r ≠ .recover ts s) :
    LeftFailed (l ++ [x]) s := by
  obtain ⟨ts, hfail, hmax⟩ := h
  refine ⟨ts, hfail.snoc x, fun ts' h' => hmax ts' ?_⟩
  exact ((fed_snoc hx).mp h').resolve_right (hrec ts')

/-- A failure is the last instruction so far. -/
lemma leftFailed_snoc {x : Feed} {ts : Timestamp} {s : SiteId} (ha : Admissible (l ++ [x]))
    (hx : x.insr.request x.timestamp = .ok (.fail ts s)) : LeftFailed (l ++ [x]) s := by
  obtain ⟨-, hnext⟩ := (admissible_snoc l x).mp ha
  refine ⟨ts, (fed_snoc hx).mpr (Or.inr rfl), fun ts' h' => ?_⟩
  rcases (fed_snoc hx).mp h' with hold | heq
  · exact (Executes.lt_of_pending hnext hx hold).le
  · cases heq

/-- **Sites that are down** were left failed, as long as no transaction `-1` is begun. -/
theorem down_run (ha : Admissible l) (hno : ¬Begun l (-1)) (hr : run l = .ok σ) :
    σ.Down (LeftFailed l) := by
  induction l using List.reverseRecOn generalizing σ with
  | nil =>
      cases hr
      refine ⟨State.siteWaits_initial.toSited, fun s hs => ?_, fun T s hl => ?_⟩
      · cases hs
      · cases hl
  | append_singleton l x ih =>
      obtain ⟨hl, hx⟩ := (admissible_snoc l x).mp ha
      rw [run_snoc, bind_eq_ok] at hr
      obtain ⟨σ₁, h1, hf⟩ := hr
      obtain ⟨r, hreq, hexec⟩ := feed_eq_ok.mp hf
      have hno' : ¬Begun l (-1) := fun h => hno (begun_snoc.mpr (Or.inl h))
      have hD := State.Down.settled.request (q := some r) (ih hl hno' h1)
      have hW := waiting_invariant fun _ _ => True
      have hP := (hW.settled l hl).request (q := some r) (hW.run hl (by simp) h1)
      have hmono : ∀ {τ : State}, τ.Down (LeftFailed l) → r.transactionId ≠ -1 →
          τ.Down (LeftFailed (l ++ [x])) := fun hτ hne => hτ.mono fun s hs => hs.snoc hreq
        fun ts heq => hne (by rw [heq]; rfl)
      have hstep : ∀ {o : IterOrder} {τ σ' : State}, τ.Down (LeftFailed l) → τ.exec o r = .ok σ' →
          σ'.Down (LeftFailed (l ++ [x])) := fun hτ hex => by
        obtain ⟨es, hout⟩ := State.exec_outcome hex
        have hm := ne_missing_of_inRange hx.inRange hreq
        refine hτ.exec hout hm (fun s hs hrec => hs.snoc hreq hrec) fun ts s heq => ?_
        subst heq
        exact leftFailed_snoc ha hreq
      rcases State.executeInstructions_cases hexec with ⟨r', τ, hτ, hr', hst, rfl⟩ |
        ⟨r', τ, σ₂, hd, hb, hex, rfl⟩ | ⟨r', τ, hτ, hr', hst, hb, hrw, rfl⟩ | ⟨σ₂, hw, hs⟩
      · obtain ⟨hDτ, hq⟩ := State.Down.settled.resolveDeadlocks hD hτ
        cases hr'.symm.trans hq
        refine (hmono hDτ fun heq => ?_).congr rfl rfl rfl
        simp [State.isStale, heq] at hst
      · obtain ⟨hDτ, hq⟩ := State.Down.settled.calledDirectly hD hd
        cases hq
        exact (hstep hDτ hex).congr rfl rfl rfl
      · obtain ⟨hDτ, hq⟩ := State.Down.settled.resolveDeadlocks hD hτ
        cases hr'.symm.trans hq
        refine (hmono hDτ fun heq => hno' ?_).congr rfl rfl rfl
        exact heq ▸ ((hW.settled l hl).resolveDeadlocks hP hτ).1.1.known.isBlocked hb
      · obtain ⟨hR₂, hW₂⟩ := (hW.settled l hl).walkStarts (hW.mono hl hx)
          (fun r' hr' => by cases hr'; exact hW.leads hl hx hreq) (by simp) hP hw
        refine State.Down.serve ha hno ?_ hR₂ hW₂ hs
        rcases hw with ⟨hτ, hn⟩ | ⟨r', τ, hd, hb, hex⟩
        · rw [State.request_resolved hτ] at hn
          cases hn
        · obtain ⟨hDτ, hq⟩ := State.Down.settled.calledDirectly hD hd
          cases hq
          exact hstep hDτ hex

/-- A round of the loop resolves the deadlocks, and walks over the queue. -/
lemma exists_walkStart (ha : Admissible l) (hr : Reaches l σ)
    (hf : σ.isAllInstructionsFinished = false) (sch : Schedule) : ∃ τ, σ.resolved sch = .ok τ ∧
      State.WalkStarts sch σ τ ∧ Acyclic τ.WaitsFor ∧
      ∀ T, T ∈ τ.transactions ↔ T ∈ σ.transactions ∧ ¬σ.Sacrificed T := by
  obtain ⟨l', hres⟩ := resolving_of_callOf ha (Or.inr ⟨hr, hf⟩ : CallOf l sch σ)
  obtain ⟨τ, hτ, -, hac, hlive⟩ := hres.resolved sch
  refine ⟨τ, hτ, Or.inl ⟨hτ, (State.request_resolved hτ).trans ?_⟩, hac, hlive⟩
  exact ((waiting_invariant fun _ _ => True).reaches ha (by simp) hr).2

/-- **A round of the loop succeeds**, if it raises no exception and aborts no transaction that is in
the queue. -/
theorem round_ok (ha : Admissible l) (hr : Reaches l σ) (hf : σ.isAllInstructionsFinished = false)
    (hx : ∀ e, State.executeInstructions sch σ = .error e → ¬e.IsException)
    (hkeep : ∀ r τ, State.CalledFromQueue sch σ r τ → ¬τ.AbortsQueued r) :
    ∃ σ', State.executeInstructions sch σ = .ok σ' := by
  have hc : CallOf l sch σ := Or.inr ⟨hr, hf⟩
  obtain ⟨τ, -, hstart, -⟩ := exists_walkStart ha hr hf sch
  rw [State.executeInstructions_of_walkStarts hstart] at hx ⊢
  cases hs : State.serveBlocked sch τ with
  | ok σ' => exact ⟨σ', rfl⟩
  | error e =>
      refine absurd ?_ (hx e hs)
      obtain ⟨l₂, ha₂, hR, hW⟩ :=
        (waiting_invariant fun _ _ => True).walkStarts ha (by simp) hc hstart
      rcases bind_eq_error.mp hs with hwalk | ⟨p, -, hs⟩
      · obtain ⟨r, τ', hin, hx'⟩ := (State.walkRule_standing ha₂ sch).called_of_error (fun h => h.2)
          (.start hR hW) (fun r τ' hin _ => (queue_kept_iff ha hc).mpr hkeep r τ' ⟨τ, hstart, hin⟩)
          hwalk
        have ht : TakenDuring l r τ' := ⟨sch, σ, hc, τ, hstart, hin⟩
        obtain ⟨l₃, ha₃, hserved⟩ := (waiting_invariant fun _ _ => True).taken ha (by simp) ht
        obtain ⟨l₄, -, hstamped⟩ :=
          (stamped_invariant fun _ _ => True).called ha (by simp) ht.called
        exact hserved.isException ha₃ hstamped hx'
      · cases hs

/-! ### The loop -/

/-- The site that the instruction fails. -/
def Instruction.failed? : Instruction → Option ℤ
  | .fail s => some s
  | _ => none

/-- The site that the instruction recovers. -/
def Instruction.recovered? : Instruction → Option ℤ
  | .recover s => some s
  | _ => none

/-- Every transaction that is begun is ended, and every site that fails recovers later. -/
structure Closing (l : List Feed) : Prop where
  ends : ∀ x ∈ l, ∀ T ∈ x.insr.begun?, ∃ y ∈ l, T ∈ y.insr.ended?
  recovers : ∀ x ∈ l, ∀ s ∈ x.insr.failed?,
    ∃ y ∈ l, x.timestamp < y.timestamp ∧ s ∈ y.insr.recovered?

instance (l : List Feed) : Decidable (Closing l) :=
  decidable_of_iff ((∀ x ∈ l, ∀ T ∈ x.insr.begun?, ∃ y ∈ l, T ∈ y.insr.ended?) ∧
    ∀ x ∈ l, ∀ s ∈ x.insr.failed?, ∃ y ∈ l, x.timestamp < y.timestamp ∧ s ∈ y.insr.recovered?)
    ⟨fun h => ⟨h.1, h.2⟩, fun h => ⟨h.1, h.2⟩⟩

lemma Closing.exists_finish (h : Closing l) {T : TranId} (hT : Begun l T) :
    ∃ ts, Fed l (.finish ts T) := by
  obtain ⟨x, hx, hxT⟩ := hT
  obtain ⟨⟨insr, ts, sch⟩, hy, hyT⟩ := h.ends x hx T hxT
  cases insr with
  | finish T' =>
      cases hyT
      exact ⟨ts, _, hy, rfl⟩
  | _ => cases hyT

lemma Closing.not_leftFailed (h : Closing l) (s : SiteId) : ¬LeftFailed l s := by
  rintro ⟨ts, ⟨⟨insr, ts', sch⟩, hx, hxr⟩, hmax⟩
  cases makes_of_request hxr with
  | @fail n _ hn =>
      obtain ⟨⟨insr', ts', sch'⟩, hy, hlt, hyi⟩ := h.recovers _ hx n rfl
      cases insr' with
      | recover n' =>
          cases hyi
          refine absurd (hmax ts' ⟨_, hy, ?_⟩) hlt.not_ge
          exact request_of_makes (.recover hn)
      | _ => cases hyi

/-- A round that begins without anyone waiting for several transactions, or for a site, makes the
queue shorter. -/
lemma round_shortens (ha : Admissible l) (hc : Closing l) (hr : Reaches l σ)
    (hf : σ.isAllInstructionsFinished = false)
    (hd : ∀ τ, σ.resolved sch = .ok τ → State.Draining (fun T ts => Fed l (.finish ts T)) τ)
    (hx : State.executeInstructions sch σ = .ok σ') :
    State.Draining (fun T ts => Fed l (.finish ts T)) σ' ∧
      σ'.blockedTransactionsQueue.keys.length < σ.blockedTransactionsQueue.keys.length := by
  obtain ⟨τ, hτ, hstart, hac, -⟩ := exists_walkStart ha hr hf sch
  obtain ⟨l₁, ha₁, ⟨hR, hW⟩, htarget⟩ :=
    (targeted_invariant fun _ _ => True).invariant.walkStarts ha (by simp)
      (Or.inr ⟨hr, hf⟩ : CallOf l sch σ) hstart
  rw [State.executeInstructions_of_walkStarts hstart] at hx
  have hthin := State.Thinned.resolved hτ
  have hdrained := State.drained_of_serve ha₁ hR hW hx
  refine ⟨(hd τ hτ).serve ha₁ hR hW hx, ?_⟩
  by_cases hne : τ.blockedTransactionsQueue.keys = []
  · rw [hdrained.keys_eq_nil hne]
    refine List.length_pos_of_ne_nil fun hnil => ?_
    have hreq := ((waiting_invariant fun _ _ => True).reaches ha (by simp) hr).2
    rw [(State.isAllInstructionsFinished_iff hreq).mpr hnil] at hf
    cases hf
  · have hbegun := ((known_invariant fun _ _ => True).reaches ha (by simp) hr).1
    obtain ⟨T, hT, hfree⟩ := (hd τ hτ).exists_free htarget hac
      (fun T hT => hc.exists_finish (hbegun.live (hthin.live hT))) hne
    exact (hdrained.length_lt hT hfree ((hd τ hτ).site T hT)).trans_le hthin.length_le

/-- **The loop ends**, when its first round begins without anyone waiting for several transactions,
or for a site. -/
theorem drains_of_draining (ha : Admissible l) (hc : Closing l) {k : ℕ} {sch : ℕ → Schedule}
    (hr : Reaches l σ) (hk : σ.blockedTransactionsQueue.keys.length < k)
    (hd : σ.isAllInstructionsFinished = false → ∀ τ, σ.resolved (sch 0) = .ok τ →
      State.Draining (fun T ts => Fed l (.finish ts T)) τ)
    (hx : ∀ n e, State.drain sch n σ = .error e → ¬e.IsException)
    (hkeep : State.SparesQueued sch σ) : State.Drains sch σ := by
  induction k generalizing σ sch with
  | zero => exact absurd hk (Nat.not_lt_zero _)
  | succ k ih =>
      cases hf : σ.isAllInstructionsFinished with
      | true =>
          have hreq := ((waiting_invariant fun _ _ => True).reaches ha (by simp) hr).2
          refine ⟨0, σ, by rw [State.drain, hf], ?_⟩
          exact (State.isAllInstructionsFinished_iff hreq).mp hf
      | false =>
          have hx₀ : ∀ e, State.executeInstructions (sch 0) σ = .error e → ¬e.IsException :=
            fun e he => hx 1 e (by rw [State.drain, hf, he]; rfl)
          obtain ⟨σ', hround⟩ := round_ok ha hr hf hx₀ fun r τ =>
            hkeep 0 σ r τ (by rw [State.drain, hf])
          obtain ⟨hnext, hlen⟩ := round_shortens ha hc hr hf (hd hf) hround
          refine .round hf hround (ih (.round hr hf hround) (by omega) (fun _ τ hτ => ?_)
            (fun n e he => hx (n + 1) e ((State.drain_succ hf hround).trans he))
            fun n σ₂ r τ hσ₂ => hkeep (n + 1) σ₂ r τ ((State.drain_succ hf hround).trans hσ₂))
          exact (State.Draining.settled.resolveDeadlocks hnext hτ).1

/-- The loop that drains the queue ends, if whoever is left in the queue waits for at most one
transaction or is a victim, and no one there waits for a site. -/
lemma drains_of_unstuck (ha : Admissible l) (hc : Closing l) (hr : run l = .ok σ)
    (sch : ℕ → Schedule) (hx : ∀ n e, State.drain sch n σ = .error e → ¬e.IsException)
    (hkeep : State.SparesQueued sch σ)
    (hsite : Begun l (-1) → ∀ T ∈ σ.blockedTransactionsQueue, T ∉ σ.siteWaitingMap)
    (hun : σ.Unstuck) : State.Drains sch σ := by
  refine drains_of_draining ha hc (.run hr) (Nat.lt_succ_self _) (fun hf τ hτ => ?_) hx hkeep
  have htarget := (targeted_invariant fun _ _ => True).invariant
  obtain ⟨τ', hτ', -, -, hlive⟩ := exists_walkStart ha (.run hr) hf (sch 0)
  cases hτ.symm.trans hτ'
  refine (State.Thinned.resolved hτ).draining ?_ ?_ (fun T hT => ((hlive T).mp hT).2) hun ?_
  · exact ((htarget.settled l ha).resolveDeadlocks (htarget.run ha (by simp) hr) hτ).1.2
  · exact (State.EndsQueued.settled.resolveDeadlocks (endsQueued_run ha hr) hτ).1
  · by_cases hno : Begun l (-1)
    · exact hsite hno
    · -- the sites that the transactions wait for are down, and were left failed
      intro T _ hT
      obtain ⟨s, hs⟩ := Dict.exists_lookup hT
      exact hc.not_leftFailed s ((down_run ha hno hr).waits T s hs)

end Runs

end RepCRec
