import RepCRec.Guarantees.WaiterOrder
import RepCRec.Schedules.Serializability

/-!
Runs without site failures are serializable, whatever the order in which the containers are visited
(`serializable_without_failures`). All copies stay readable, so that the reads under locks are
protected, and every commit reaches all copies of its variables. Where there are read-only
transactions, no end may wait in the queue: it would store its versions under the timestamp at which
it was fed, which may be before the begin of a read-only transaction that has read already.
-/

namespace RepCRec

open AvailableCopies (Config Step Steps)
open Container (IterOrder)
open Serial (Op runOps Legal)

namespace HistoryInvariant

variable {C : Request → State → Prop} {Q : List Feed → State → Prop}

lemma serving (hQ : HistoryInvariant C Q) : ServingInvariant C Q where
  initial := hQ.initial
  graph h _ := hQ.congr h rfl rfl rfl
  request h := hQ.congr h rfl rfl rfl
  abort hR h ha := hQ.abort hR.good h ha
  dequeue h := hQ.congr h rfl rfl rfl
  enqueue hx _ _ h _ _ _ := hQ.congr (hQ.mono hx h) rfl rfl rfl
  exec ha he hR h hC hx hout := hQ.exec ha he.executes hR h hC hx hout
  mono := hQ.mono

end HistoryInvariant

namespace State

variable {l l' : List Feed} {σ σ' : State} {o : IterOrder} {r : Request} {es tr tr' : List Event}
  {T : TranId} {t : Transaction} {v : VarId} {b : Bool}

/-- The request is no failure of a site, and no end that has waited in the queue. -/
def Prompt (r : Request) (σ : State) : Prop :=
  SparesSites r ∧ ∀ ts T, r = .finish ts T → r ∉ σ.blockedRequests T

/-- The stores reach all copies, in the order of their timestamps. -/
structure StoredOnTime (l : List Feed) (σ : State) : Prop where
  unfailed : ∀ s, .failed s ∉ σ.trace
  reaches : ∀ {T s v x k}, .installs T s v x k ∈ σ.trace →
    ∀ s' ∈ copies v, .installs T s' v x k ∈ σ.trace
  begins : ∀ {T t}, σ.transactions.lookup T = some t → ∃ b, Fed l (.create t.timestamp T b)
  ordered : ∀ {tr₁ T s v x k tr₂}, σ.trace = tr₁ ++ .installs T s v x k :: tr₂ →
    ∀ {T' s' v' x' k'}, .installs T' s' v' x' k' ∈ tr₁ → k' ≤ k
  after : ∀ {tr₁ T b tr₂ t}, σ.trace = tr₁ ++ .created T b :: tr₂ →
    σ.transactions.lookup T = some t →
      ∀ {T' s v x k}, .installs T' s v x k ∈ tr₂ → t.timestamp < k

/-- Without failures all sites are up and all copies readable. -/
lemma Reached.unfailed (h : Reached l σ) (hf : ∀ s, .failed s ∉ σ.trace) :
    AvailableCopies.Unfailed σ.view := by
  refine AvailableCopies.Unfailed.steps good_initial.inv (.of_initial view_initial)
    h.simulation.steps fun s hmem => ?_
  obtain ⟨e, he, hact⟩ := mem_actions hmem
  cases hact
  exact hf s he

/-- A commit stores into all copies of a variable, when they are readable. -/
lemma Outcome.installs_copies (h : Outcome o σ r es σ') (hg : σ.Good)
    (hu : AvailableCopies.Unfailed σ.view) {s s' : SiteId} {x : Value} {k : Timestamp}
    (hes : .installs T s v x k ∈ es) (hs' : s' ∈ copies v) : .installs T s' v x k ∈ es := by
  obtain ⟨rfl, t, ht, hok, hx⟩ := h.installs_mem hes
  have hp : σ.view.pending T s v = some x := by simp [view, pending, ht, hx]
  have hp' := hg.inv.pending_covers hp hs' (hu.readable s' v)
  cases h with
  | @commits _ _ t' _ ht' =>
      rw [ht] at ht'
      cases ht'
      have hx' : t.writeRecords.get? s' v = some x := by simpa [view, pending, ht] using hp'
      exact List.mem_append_left _ (List.mem_map.mpr ⟨(s', v, x), mem_stores.mpr hx', rfl⟩)
  | unavailable ha => cases ha
  | waitsForLock ha => cases ha
  | commitFails => simp at hes

namespace StoredOnTime

lemma congr (h : StoredOnTime l σ) (ht : σ'.transactions = σ.transactions)
    (htr : σ'.trace = σ.trace) : StoredOnTime l σ' where
  unfailed := htr ▸ h.unfailed
  reaches hmem s' hs' := htr ▸ h.reaches (htr ▸ hmem) s' hs'
  begins hl := h.begins (ht ▸ hl)
  ordered heq := h.ordered (htr ▸ heq)
  after heq hl := h.after (htr ▸ heq) (ht ▸ hl)

lemma snoc (h : StoredOnTime l σ) (x : Feed) : StoredOnTime (l ++ [x]) σ where
  unfailed := h.unfailed
  reaches := h.reaches
  begins hl := (h.begins hl).imp fun _ hf => hf.snoc x
  ordered := h.ordered
  after := h.after

lemma abortTransaction (h : StoredOnTime l σ) (ha : σ.abortTransaction o T = .ok σ') :
    StoredOnTime l σ' := by
  obtain ⟨hg, -, htr⟩ := gone_abortTransaction ha
  have hlive : ∀ {T' t}, σ'.transactions.lookup T' = some t →
      ∃ t₀, σ.transactions.lookup T' = some t₀ ∧ t₀.timestamp = t.timestamp := by
    intro T' t hl
    obtain ⟨t₀, ht₀, hfix⟩ := Option.map_eq_some_iff.mp (hg.fixed hl)
    exact ⟨t₀, ht₀, congrArg Prod.fst hfix⟩
  refine ⟨fun s hmem => h.unfailed s (by simpa [htr] using hmem), fun hmem s' hs' => ?_,
    fun hl => ?_, fun {tr₁ T₁ s v x k tr₂} heq => ?_, fun {tr₁ T₁ b tr₂ t} heq hl => ?_⟩
  · rw [htr] at hmem ⊢
    exact List.mem_append_left _ (h.reaches (by simpa using hmem) s' hs')
  · obtain ⟨t₀, ht₀, hts⟩ := hlive hl
    exact hts ▸ h.begins ht₀
  · rw [htr] at heq
    rcases append_cons_eq_append heq with ⟨n, h1, -⟩ | ⟨n, h1, -⟩
    · exact h.ordered h1
    · obtain ⟨-, h2⟩ | ⟨-, h2⟩ := List.singleton_eq_append_iff.mp h1 <;> cases h2
  · obtain ⟨t₀, ht₀, hts⟩ := hlive hl
    rw [htr] at heq
    rcases append_cons_eq_append heq with ⟨n, h1, rfl⟩ | ⟨n, h1, -⟩
    · intro T' s v x k hi
      exact hts ▸ h.after h1 ht₀ (by simpa using hi)
    · obtain ⟨-, h2⟩ | ⟨-, h2⟩ := List.singleton_eq_append_iff.mp h1 <;> cases h2

/-- An end that has not waited is later than all that was fed before. -/
lemma lt_of_finish (he : Serves l l' r σ) (hr : Prompt r σ) (hT : T ∈ σ.transactions)
    {k : Timestamp} (heq : r = .finish k T) {r' : Request} (hf : Fed l r') : r'.timestamp < k := by
  subst heq
  cases he with
  | pending hx hreq _ _ => exact Executes.lt_of_pending hx hreq hf
  | queued hs =>
      obtain ⟨q, hq, hmem⟩ := hs.queued hT
      exact absurd (mem_blockedRequests.mpr ⟨q, hq, hmem⟩) (hr.2 k T rfl)

lemma exec (he : Serves l l' r σ) (hR : Reached l σ) (hS : Stamped l σ)
    (h : StoredOnTime l σ) (hr : Prompt r σ) (hout : Outcome o σ r es σ') : StoredOnTime l' σ' := by
  have hlater : ∀ {T s v x k}, .installs T s v x k ∈ es → ∀ {r'}, Fed l r' → r'.timestamp < k := by
    intro T s v x k hi r' hf
    obtain ⟨heq, t, ht, -⟩ := hout.installs_mem hi
    exact lt_of_finish he hr (Dict.mem_of_lookup ht) heq hf
  refine ⟨fun s hmem => ?_, fun {T s v x k} hmem s' hs' => ?_, fun {T t'} hl => ?_,
    fun {tr₁ T s v x k tr₂} heq => ?_, fun {tr₁ T b tr₂ t'} heq hl => ?_⟩
  · rw [hout.trace, List.mem_append] at hmem
    rcases hmem with hmem | hmem
    · exact h.unfailed s hmem
    · obtain ⟨ts, rfl⟩ := hout.failed_mem hmem
      exact hr.1 ts s rfl
  · rw [hout.trace, List.mem_append] at hmem ⊢
    exact hmem.imp (fun hmem => h.reaches hmem s' hs')
      fun hmem => hout.installs_copies hR.good (hR.unfailed h.unfailed) hmem hs'
  · rcases hout.transaction hl with ⟨t, ht, hafter⟩ | ⟨ts, b', rfl, rfl⟩
    · rw [hafter.timestamp]
      exact (h.begins ht).imp fun _ => he.executes.fed_mono
    · exact ⟨b', he.executes.fed⟩
  · intro T' s' v' x' k' hi
    rw [hout.trace] at heq
    rcases append_cons_eq_append heq with ⟨n, h1, -⟩ | ⟨n, h1, rfl⟩
    · exact h.ordered h1 hi
    · have hnew : .installs T s v x k ∈ es := h1 ▸ List.mem_append_right n List.mem_cons_self
      rcases List.mem_append.mp hi with hold | hi
      · have hf : Fed l (.finish k' T') := (hS.fed hold).1
        exact (hlater hnew hf).le
      · -- the stores of one commit have one timestamp
        obtain ⟨rfl, -⟩ := hout.installs_mem hnew
        obtain ⟨heq, -⟩ := hout.installs_mem (h1 ▸ List.mem_append_left _ hi)
        cases heq
        exact le_rfl
  · intro T' s v x k hi
    rw [hout.trace] at heq
    rcases append_cons_eq_append heq with ⟨n, h1, rfl⟩ | ⟨n, h1, -⟩
    · rcases hout.transaction hl with ⟨t, ht, hafter⟩ | ⟨ts, b', rfl, rfl⟩
      · rw [hafter.timestamp]
        rcases List.mem_append.mp hi with hi | hi
        · exact h.after h1 ht hi
        · obtain ⟨b', hf⟩ := h.begins ht
          exact hlater hi hf
      · have hb := hS.created (h1 ▸ List.mem_append_right tr₁ List.mem_cons_self)
        exact absurd hb (he.executes.fresh rfl).1
    · obtain ⟨ts, rfl⟩ := hout.created_mem (h1 ▸ List.mem_append_right n List.mem_cons_self)
      have hi' : .installs T' s v x k ∈ es := h1 ▸ List.mem_append_right n (.tail _ hi)
      rw [hout.create_eq] at hi'
      simp at hi'

/-- A store is not later than the last one of its variable. -/
lemma le_lastStamp
    (hord : ∀ {tr₁ T s v x k tr₂}, tr = tr₁ ++ .installs T s v x k :: tr₂ →
      ∀ {T' s' v' x' k'}, .installs T' s' v' x' k' ∈ tr₁ → k' ≤ k)
    {T' : TranId} {s : SiteId} {x : Value} {k : Timestamp} (hi : .installs T' s v x k ∈ tr) :
    k ≤ lastStamp tr v := by
  induction tr using List.reverseRecOn with
  | nil => simp at hi
  | append_singleton tr e ih =>
      have hold : .installs T' s v x k ∈ tr → k ≤ lastStamp tr v :=
        ih fun {tr₁ T s v x k tr₂} heq => hord (by rw [heq, List.append_assoc, List.cons_append])
      rw [lastStamp, lastStore_snoc]
      rcases List.mem_append.mp hi with hi' | hi'
      · cases he : e.store? v with
        | none =>
            rw [Option.none_or]
            exact hold hi'
        | some p =>
            cases e with
            | installs T₁ s₁ v₁ x₁ k₁ =>
                rw [Event.store?] at he
                split_ifs at he
                cases he
                exact hord rfl hi'
            | _ => cases he
      · cases List.mem_singleton.mp hi'
        simp [Event.store?]

/-- All copies of `v` have its last commit before the begin of a transaction, and no other one up to
the begin. -/
lemma hasSnapshot (h : StoredOnTime l σ)
    (ht : σ.transactions.lookup T = some t) (htr : σ.trace = tr ++ .created T b :: tr')
    {s : SiteId} (hs : s ∈ copies v) : σ.HasSnapshot tr t.timestamp s v := by
  constructor
  · rw [lastStamp]
    cases hl : lastStore tr v with
    | none => exact Or.inl rfl
    | some p =>
        obtain ⟨T', s', hmem⟩ := mem_of_lastStore hl
        have hmem' : .installs T' s' v p.2 p.1 ∈ σ.trace := htr ▸ List.mem_append_left _ hmem
        exact Or.inr ⟨p.2, mem_installsAt.mpr ⟨T', h.reaches hmem' s hs⟩⟩
  · intro p hp
    obtain ⟨T', hi⟩ := mem_installsAt.mp hp
    rw [htr, List.mem_append, List.mem_cons] at hi
    rcases hi with hi | hi | hi
    · refine Or.inl (le_lastStamp (fun {tr₁ T₁ s₁ v₁ x₁ k₁ tr₂} heq => ?_) hi)
      have hall : σ.trace = tr₁ ++ .installs T₁ s₁ v₁ x₁ k₁ :: (tr₂ ++ .created T b :: tr') := by
        rw [htr, heq, List.append_assoc, List.cons_append]
      intro T₂ s₂ v₂ x₂ k₂ hi
      exact h.ordered hall hi
    · cases hi
    · exact Or.inr (h.after htr ht hi)

end StoredOnTime

end State

/-- **The stores of a run without site failures**, in which no end waits in the queue. -/
theorem storedOnTime_invariant : ServingInvariant State.Prompt fun l σ =>
    State.Stamped l σ ∧ State.StoredOnTime l σ where
  initial := ⟨(stamped_invariant State.Prompt).initial, fun _ h => by simp [State.initial] at h,
    fun h => by simp [State.initial] at h, fun h => by simp [State.initial] at h,
    fun h => by simp [State.initial] at h, fun h => by simp [State.initial] at h⟩
  graph h hw := ⟨(stamped_invariant State.Prompt).serving.graph h.1 hw, h.2.congr rfl rfl⟩
  request h := ⟨(stamped_invariant State.Prompt).serving.request h.1, h.2.congr rfl rfl⟩
  abort hR h ha := ⟨h.1.abortTransaction ha, h.2.abortTransaction ha⟩
  dequeue h := ⟨(stamped_invariant State.Prompt).serving.dequeue h.1, h.2.congr rfl rfl⟩
  enqueue hx hr hR h hst hb hrw :=
    ⟨(stamped_invariant State.Prompt).serving.enqueue hx hr hR h.1 hst hb hrw,
      (h.2.snoc _).congr rfl rfl⟩
  exec ha he hR h hC _ hout := ⟨h.1.exec ha he.executes hR hout, h.2.exec he hR h.1 hC hout⟩
  mono _ h := ⟨h.1.snoc _, h.2.snoc _⟩

/-! ### Reads under locks -/

/-- All sites are up, with readable copies. -/
def AllUp (S : SiteId → Site) : Prop :=
  ∀ s, (S s).writeAvailable = true ∧ ∀ v, (S s).readAvailable v = true

lemma AllUp.redo {S : SiteId → Site} {e : Event} (h : AllUp S) (he : ∀ s, e ≠ .failed s) :
    AllUp (e.redo S) := by
  intro s
  cases e with
  | sharedLock | writeLock =>
      rw [Event.redo, writeAvailable_changeCopies, readAvailable_changeCopies]
      exact h s
  | installs T s' v x ts =>
      rw [Event.redo]
      by_cases hs : s = s'
      · subst hs
        rw [Function.update_self]
        refine ⟨(h s).1, fun w => ?_⟩
        by_cases hw : w = v
        · simp [Site.setReadAvailable, hw]
        · simpa [Site.setReadAvailable, Site.assignVar, hw] using (h s).2 w
      · rw [Function.update_of_ne hs]
        exact h s
  | failed s' => exact absurd rfl (he s')
  | recovered s' =>
      rw [Event.redo]
      by_cases hs : s = s'
      · subst hs
        obtain ⟨h1, -, h3⟩ := foldl_setReadAvailable (State.uniqueVars s) (S s).setWriteAvailable
        rw [Function.update_self, h1]
        exact ⟨rfl, fun v => (h3 v).mpr (Or.inl ((h s).2 v))⟩
      · rw [Function.update_of_ne hs]
        exact h s
  | _ => exact h s

lemma allUp_redo {tr : List Event} (h : ∀ s, .failed s ∉ tr) : AllUp (redo tr) := by
  induction tr using List.reverseRecOn with
  | nil => exact fun s => ⟨rfl, fun v => rfl⟩
  | append_singleton tr e ih =>
      rw [redo_append, List.foldl_cons, List.foldl_nil]
      refine (ih fun s hs => h s (List.mem_append_left _ hs)).redo fun s he => h s ?_
      simp [he]

section Runs

variable {l : List Feed} {σ τ : State} {T : TranId} {v : VarId}

/-- Without failures the reads under locks are protected. -/
lemma readsProtected_of_unfailed (hR : State.Reached l σ) (hf : ∀ s, .failed s ∉ σ.trace) :
    ReadsProtected σ.trace where
  readable htr _ _ _ := ((allUp_redo fun s hs => hf s (htr ▸ List.mem_append_left _ hs)) _).2 _
  covered {tr₁ T v L tr₂ tr₃} htr _ _ _ := by
    have hup : ∀ s, siteUp (tr₁ ++ .sharedLock T v L :: tr₂) s = true := fun s =>
      ((allUp_redo fun s hs => hf s (htr ▸ List.mem_append_left _ hs)) s).1
    -- the lock was taken at a copy that was readable
    have hrun := hR.simulation.steps
    rw [htr, List.append_assoc, actions_append] at hrun
    obtain ⟨c, h1, h2⟩ := hrun.of_append
    have hc : AvailableCopies.Unfailed c := by
      refine AvailableCopies.Unfailed.steps State.good_initial.inv (.of_initial State.view_initial)
        h1 fun s hmem => ?_
      obtain ⟨e, he, hact⟩ := mem_actions hmem
      cases hact
      exact hf s (htr ▸ List.mem_append_left _ (List.mem_append_left _ he))
    cases h2 with
    | cons hlock _ =>
        cases hlock with
        | lockShared _ _ hmem =>
            exact ⟨v.home, (hmem v.home).mpr ⟨home_mem_copies v, hc.up _, hc.readable _ _⟩, hup _⟩

/-- Without failures no failure of a site is in the trace. -/
lemma not_failed (hfail : ∀ x ∈ l, ∀ s, x.insr ≠ .fail s) (h : State.Traced (CalledDuring l) σ)
    (s : SiteId) : .failed s ∉ σ.trace := by
  intro hmem
  obtain ⟨tr₁, tr₂, htr⟩ := List.append_of_mem hmem
  rcases h _ _ _ htr with ⟨T', hT'⟩ | ⟨r, τ, o, τ', es₁, es₂, hcalled, -, hout, -⟩
  · cases hT'
  · obtain ⟨ts, rfl⟩ := hout.failed_mem (List.mem_append_right es₁ List.mem_cons_self)
    exact sparesSites_of_called hfail hcalled ts s rfl

/-- The write of a transaction is that of an instruction. -/
lemma fed_of_write (h : State.Traced (CalledDuring l) σ) {x : Value}
    (hw : .write v x ∈ accesses σ.trace T) : ∃ y ∈ l, ∃ n z, y.insr = .write T n z := by
  obtain ⟨e, he, hacc⟩ := mem_accesses.mp hw
  obtain ⟨tr₁, tr₂, htr⟩ := List.append_of_mem he
  rcases h _ _ _ htr with ⟨T', rfl⟩ | ⟨r, τ, o, τ', es₁, es₂, hcalled, -, hout, -⟩
  · cases hacc
  · obtain ⟨-, ts, rfl⟩ := hout.written_mem (List.mem_append_right es₁ List.mem_cons_self)
      (Event.written_of_access? hacc)
    obtain ⟨y, hy, hreq⟩ := fed_of_called hcalled
    generalize hi : y.insr = i at hreq
    cases makes_of_request hreq
    exact ⟨y, hy, _, _, hi⟩

/-- A read-only transaction of the trace was begun by an instruction. -/
lemma exists_beginRO (h : State.Traced (CalledDuring l) σ) (hc : .created T true ∈ σ.trace) :
    ∃ x ∈ l, x.insr = .beginRO T := by
  by_contra hno
  push Not at hno
  obtain ⟨ts, x, hx, hr⟩ := fed_of_created h hc
  generalize hi : x.insr = i at hr
  cases makes_of_request hr
  exact hno x hx hi

/-- The read-only transactions find their snapshots, when no end waits in the queue. -/
lemma snapshotReadable_of_unfailed (ha : Admissible l) (hfail : ∀ x ∈ l, ∀ s, x.insr ≠ .fail s)
    (hend : ∀ ts T' τ, CalledDuring l (.finish ts T') τ →
      .finish ts T' ∉ τ.blockedRequests T')
    {ts : Timestamp} {t : Transaction} {tr : List Event}
    (h : SnapshotReadDuring l ts T v τ t tr) : τ.SnapshotReadable tr t.timestamp v := by
  have hC : ∀ r τ, CalledDuring l r τ → State.Prompt r τ := by
    refine fun r τ hc => ⟨sparesSites_of_called hfail hc, ?_⟩
    rintro ts T rfl
    exact hend ts T τ hc
  obtain ⟨l', -, -, hT⟩ := storedOnTime_invariant.called ha hC h.called
  obtain ⟨tr', htr⟩ := h.begun
  exact fun s hs => hT.hasSnapshot h.live htr (mem_copySites.mp (List.mem_of_find?_eq_some hs))

/-- The serial execution of a run without site failures is legal, and leads to its database, if the
read-only transactions write nothing, no end waits in the queue when there are any, and no granted
write is lost. -/
lemma legal_of_unfailed (ha : Admissible l) (hr : Reaches l σ)
    (hfail : ∀ x ∈ l, ∀ s, x.insr ≠ .fail s) (hkept : WritesKept σ.trace)
    (hro : ∀ x ∈ l, ∀ T, x.insr = .beginRO T → (∀ y ∈ l, ∀ n z, y.insr ≠ .write T n z) ∧
      ∀ ts T' τ, CalledDuring l (.finish ts T') τ → .finish ts T' ∉ τ.blockedRequests T') :
    Legal initialDb (serialExecution σ.trace) ∧
      runOps (serialExecution σ.trace) initialDb = committed σ.trace := by
  have htr := traced_reaches ha hr
  have hw : ReadOnlySilent σ.trace := by
    intro T hT v x hmem
    obtain ⟨y, hy, hbegin⟩ := exists_beginRO htr hT
    obtain ⟨z, hz, n, x', hwrite⟩ := fed_of_write htr hmem
    exact (hro y hy T hbegin).1 z hz n x' hwrite
  have hs : ∀ ts T v τ t tr, SnapshotReadDuring l ts T v τ t tr →
      τ.SnapshotReadable tr t.timestamp v := by
    intro ts T v τ t tr h
    obtain ⟨l', -, hτ⟩ := (traced_invariant (CalledDuring l)).called ha (fun _ _ => id) h.called
    obtain ⟨tr', heq⟩ := h.begun
    obtain ⟨y, hy, hbegin⟩ := exists_beginRO hτ (heq ▸ List.mem_append_right tr List.mem_cons_self)
    exact snapshotReadable_of_unfailed ha hfail (hro y hy T hbegin).2 h
  exact legal_serialExecution ha hr
    (readsProtected_of_unfailed (reached_reaches ha hr) (not_failed hfail htr)) hw hkept hs

/-- **Runs without site failures are one-copy serializable**, if no granted write is lost, the
read-only transactions write nothing, and no end waits in the queue when there are such
transactions. All copies have the values of the serial execution. -/
theorem serializable_without_failures (ha : Admissible l) (hr : Reaches l σ)
    (hfail : ∀ x ∈ l, ∀ s, x.insr ≠ .fail s) (hkept : WritesKept σ.trace)
    (hro : ∀ x ∈ l, ∀ T, x.insr = .beginRO T → (∀ y ∈ l, ∀ n z, y.insr ≠ .write T n z) ∧
      ∀ ts T' τ, CalledDuring l (.finish ts T') τ → .finish ts T' ∉ τ.blockedRequests T') :
    Legal initialDb (serialExecution σ.trace) ∧ ∀ s v, s ∈ copies v →
      (σ.getVariable s v).value = runOps (serialExecution σ.trace) initialDb v := by
  have hR := reached_reaches ha hr
  have hf := not_failed hfail (traced_reaches ha hr)
  obtain ⟨hlegal, hdb⟩ := legal_of_unfailed ha hr hfail hkept hro
  refine ⟨hlegal, fun s v hs => ?_⟩
  rw [hdb]
  exact hR.good.inv.one_copy hs ((hR.unfailed hf).readable s v)

/-- A read-only transaction that begins between two commits, of which the second one waits for a
lock of the first. -/
def unfailedRun : List Feed :=
  inOrder Schedule.stored [.begin 1, .begin 2, .write 1 2 7, .write 2 2 8, .finish 1, .beginRO 3,
    .finish 2, .read 3 2, .finish 3]

theorem serializable_without_failures_unfailedRun : ∃ σ, Reaches unfailedRun σ ∧
    serialExecution σ.trace = [.write x2 7, .read x2 7, .write x2 8] ∧
    Legal initialDb (serialExecution σ.trace) ∧
    (σ.getVariable s1 x2).value = runOps (serialExecution σ.trace) initialDb x2 := by
  obtain ⟨σ, hr, hf⟩ := exists_ok_of_eval (x := run unfailedRun)
    (f := fun σ => (serialExecution σ.trace, decide (WritesKept σ.trace)))
    (a := ([.write x2 7, .read x2 7, .write x2 8], true)) (by decide +kernel)
  rw [Prod.mk.injEq, decide_eq_true_iff] at hf
  obtain ⟨-, hdirect, htaken⟩ := forall_of_feedCalls (l := unfailedRun) (D := fun _ _ => True)
    (A := fun r τ => r.isReadWrite = true ∨ r ∉ τ.blockedRequests r.transactionId)
    (C := fun r τ => r.isReadWrite = true ∨ r ∉ τ.blockedRequests r.transactionId)
    (by decide +kernel) (by decide +kernel)
  have hro : ∀ x ∈ unfailedRun, ∀ T, x.insr = .beginRO T →
      (∀ y ∈ unfailedRun, ∀ n z, y.insr ≠ .write T n z) ∧
      ∀ ts T' τ, CalledDuring unfailedRun (.finish ts T') τ →
        .finish ts T' ∉ τ.blockedRequests T' := by
    intro x hx T hT
    obtain rfl : 3 = T := by
      revert x T
      simp [unfailedRun, inOrder]
    refine ⟨by simp [unfailedRun, inOrder], fun ts T' τ hc => ?_⟩
    exact (hc.cases.elim (hdirect _ τ) (htaken _ τ)).resolve_left Bool.false_ne_true
  obtain ⟨hlegal, hval⟩ := serializable_without_failures (by decide +kernel) (.run hr)
    (by simp [unfailedRun, inOrder]) hf.2 hro
  exact ⟨σ, .run hr, hf.1, hlegal, hval s1 x2 (mem_copies_of_even rfl s1)⟩

end Runs

end RepCRec
