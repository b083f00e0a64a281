import RepCRec.Engine.Indexes
import RepCRec.Engine.OpenRun
import RepCRec.Engine.Sites
import RepCRec.Refinement.Blocking

/-!
The site waiting map along the execution of requests. An entry is written by a read of an odd
variable that is not readable at its home site, and taken away by the recovery of this site
(`Outcome.siteWaitingMap_cases`), but not when its transaction ends. So the entries belong to
live transactions with a blocked read (`SiteWaits`) as long as no transaction ends that waits for a
site (`SiteWaits.exec`), and the walk over the queue sends no read back to wait (`walks_siteWaits`).
-/

namespace RepCRec

open Container (IterOrder)

namespace State

variable {o : IterOrder} {σ σ' τ : State} {r : Request} {es : List Event} {T : TranId} {v : VarId}
  {s : SiteId} {sch : Schedule}

/-- The request is a read of an odd variable that is not readable at its home site. -/
def NeedsSite (σ : State) : Request → Prop
  | .read _ _ v => v.isOdd = true ∧ σ.isReadAvailable v.home v = false
  | .missing _ (.read _ v) => v.isOdd = true
  | _ => False

/-- The request ends a transaction that waits for a site: it is its end, a read that aborts it, or
the failure of a site that it has written to. -/
def EndsSiteWait (σ : State) : Request → Prop
  | .finish _ T => T ∈ σ.siteWaitingMap
  | .read _ T v => T ∈ σ.siteWaitingMap ∧ v.isOdd = false ∧
      (∀ s ∈ SiteId.all, σ.isReadAvailable s v = false) ∧
      ∃ t ∈ σ.transactions.lookup T, t.isReadOnly = true
  | .missing _ (.read T v) => T ∈ σ.siteWaitingMap ∧ v.isOdd = false ∧
      ∃ t ∈ σ.transactions.lookup T, t.isReadOnly = true
  | .fail _ s => ∃ T ∈ σ.siteWaitingMap.keys, ∃ t ∈ σ.transactions.lookup T,
      s ∈ t.writeAccessedSites
  | _ => False

instance (σ : State) : ∀ r, Decidable (σ.NeedsSite r)
  | .read _ _ _ => inferInstanceAs (Decidable (_ ∧ _))
  | .missing _ (.read _ v) => inferInstanceAs (Decidable (v.isOdd = true))
  | .write _ _ _ _ | .create _ _ _ | .finish _ _ | .dump _ | .fail _ _ | .recover _ _ |
    .missing _ (.write _ _ _) | .missing _ (.fail _) | .missing _ (.recover _) =>
      inferInstanceAs (Decidable False)

instance (σ : State) : ∀ r, Decidable (σ.EndsSiteWait r)
  | .finish _ T => inferInstanceAs (Decidable (T ∈ σ.siteWaitingMap))
  | .read _ _ _ | .missing _ (.read _ _) => inferInstanceAs (Decidable (_ ∧ _))
  | .fail _ s => inferInstanceAs (Decidable (∃ T ∈ σ.siteWaitingMap.keys,
      ∃ t ∈ σ.transactions.lookup T, s ∈ t.writeAccessedSites))
  | .write _ _ _ _ | .create _ _ _ | .dump _ | .recover _ _ | .missing _ (.write _ _ _) |
    .missing _ (.fail _) | .missing _ (.recover _) => inferInstanceAs (Decidable False)

/-- A read that needs its site waits for it, and its transaction is live if it did not wait. -/
lemma Sited.waits_of_needsSite {ts : Timestamp} (h : Sited σ)
    (hout : Outcome o σ (.read ts T v) es σ') (hr : σ.NeedsSite (.read ts T v)) :
    es = [.waitsForSite (.read ts T v)] ∧ (T ∈ σ.siteWaitingMap ∨ T ∈ σ.transactions) := by
  obtain ⟨hv, hno⟩ := hr
  have hdown : σ.isWriteAvailable v.home ≠ true := fun hup => by simp [h.odd v hv hup] at hno
  cases hout with
  | unavailable ha hv' hup hre =>
      cases ha
      rw [hre ts rfl] at hno
      cases hno
  | @waitsForLock _ T' v' s ha hs hup =>
      cases ha
      rw [copySites, if_pos hv, List.mem_singleton] at hs
      exact absurd (hs ▸ hup) hdown
  | waitsForSite _ _ hx =>
      refine ⟨rfl, (waitForSite_cases hx).imp And.left ?_⟩
      rintro ⟨-, σ₁, h1, -⟩
      obtain ⟨t, ht, -⟩ := modifyTransaction_eq_ok.mp h1
      have hT : T ∈ σ.transactions := Dict.mem_of_lookup ht
      exact hT
  | readsVersion _ _ hs hre =>
      rw [copySites, if_pos hv, List.mem_singleton] at hs
      rw [hs, hno] at hre
      cases hre
  | readAborts _ _ hev => simp [hv] at hev
  | sharesOdd _ _ _ _ hre => simp [hno] at hre
  | sharesEven _ _ hev => simp [hv] at hev

/-- **The entries of the site waiting map** after a request are those before it, without those that
a recovery takes away, and one that a read adds. -/
theorem Outcome.siteWaitingMap_cases (hout : Outcome o σ r es σ')
    (hl : σ'.siteWaitingMap.lookup T = some s) :
    (σ.siteWaitingMap.lookup T = some s ∧ ∀ ts, r ≠ .recover ts s) ∨
      (∃ ts v, r = .read ts T v ∧ σ.NeedsSite r ∧ v.home = s) ∨
      ∃ ts v, r = .missing ts (.read T v) ∧ σ.NeedsSite r := by
  by_cases hr : ∃ ts, r = .recover ts s
  · obtain ⟨ts, rfl⟩ := hr
    cases hout with
    | recovered =>
        rw [(recovered_execRecover σ o s).siteWaitingMap] at hl
        split_ifs at hl with h1
        exact absurd hl h1
    | unavailable ha => cases ha
    | waitsForLock ha => cases ha
  · have hrec : ∀ ts, r ≠ .recover ts s := fun ts heq => hr ⟨ts, heq⟩
    refine hout.index_induction (P := fun σ₁ => σ₁.siteWaitingMap.lookup T = some s →
      (σ.siteWaitingMap.lookup T = some s ∧ ∀ ts, r ≠ .recover ts s) ∨
        (∃ ts v, r = .read ts T v ∧ σ.NeedsSite r ∧ v.home = s) ∨
        ∃ ts v, r = .missing ts (.read T v) ∧ σ.NeedsSite r) (fun h => Or.inl ⟨h, hrec⟩)
      (fun hs ih h => ih (hs.siteWaitingMap ▸ h)) (fun _ hs ih h => ih (hs.siteWaitingMap ▸ h))
      (fun _ _ _ _ h => Or.inl ⟨h, hrec⟩) (fun _ _ _ _ _ _ _ _ h => Or.inl ⟨h, hrec⟩)
      (fun ts T' v heq hv hno _ h => ?_) (fun ts T' v s' heq hv _ _ _ h => ?_)
      (fun _ ih h => ih h) (fun ts s' heq hs h => ?_) hl
    · subst heq
      rw [addToSiteWaitingMap, Dict.lookup_insert] at h
      split_ifs at h with hT
      · cases h
        exact Or.inr (Or.inl ⟨ts, v, by rw [hT], ⟨hv, hno⟩, rfl⟩)
      · exact Or.inl ⟨h, hrec⟩
    · subst heq
      rw [addToSiteWaitingMap, Dict.lookup_insert] at h
      split_ifs at h with hT
      · exact Or.inr (Or.inr ⟨ts, v, by rw [hT], hv⟩)
      · exact Or.inl ⟨h, hrec⟩
    · rw [hs.siteWaitingMap] at h
      split_ifs at h
      exact Or.inl ⟨h, hrec⟩

/-- A transaction leaves by its end or by an abort. -/
lemma Outcome.live_of_not_ends (hout : Outcome o σ r es σ') (hend : ¬σ.EndsSiteWait r)
    (hT : T ∈ σ.siteWaitingMap) (hlive : T ∈ σ.transactions) :
    T ∈ σ'.transactions ∧ .aborted T ∉ es := by
  have hab : .aborted T ∉ es := fun hes => hend <| by
    have ha := hout.aborted_iff.mp hes
    cases r with
    | finish ts T' =>
        obtain ⟨rfl, -⟩ := ha
        exact hT
    | read ts T' v =>
        obtain ⟨rfl, hv, hno, ht⟩ := ha
        exact ⟨hT, hv, fun s _ => hno s, ht⟩
    | fail ts s => exact ⟨T, AList.mem_keys.mp hT, ha⟩
    | missing ts m =>
        cases m with
        | read T' v =>
            obtain ⟨rfl, hv, ht⟩ := ha
            exact ⟨hT, hv, ht⟩
        | _ => exact ha.elim
    | _ => exact ha.elim
  refine ⟨hout.mem_transactions.mpr ⟨Or.inl hlive, fun hes => hend ?_, hab⟩, hab⟩
  obtain ⟨ts, rfl⟩ := hout.committed_mem hes
  exact hT

/-- The transactions that wait for sites are live, and each has a blocked read of a variable that
is not readable at the site. -/
structure SiteWaits (σ : State) : Prop extends Sited σ where
  waits : ∀ T s, σ.siteWaitingMap.lookup T = some s → T ∈ σ.transactions ∧
    ∃ ts v, σ.Queued (.read ts T v) ∧ σ.NeedsSite (.read ts T v) ∧ v.home = s

namespace SiteWaits

lemma live (h : SiteWaits σ) (hT : T ∈ σ.siteWaitingMap) : T ∈ σ.transactions := by
  obtain ⟨s, hs⟩ := Dict.exists_lookup hT
  exact (h.waits T s hs).1

lemma enqueue (h : SiteWaits σ) : SiteWaits (σ.addRequestToBlockedQueue r) where
  toSited := h.toSited.congr rfl rfl
  waits T s hl := by
    obtain ⟨hlive, ts, v, hq, hn, hs⟩ := h.waits T s hl
    exact ⟨hlive, ts, v, hq.addRequest r, hn, hs⟩

/-- An execution keeps the waiting, if it ends no transaction that waits for a site, and a read that
starts to wait is younger than the blocked ones. -/
theorem exec (h : SiteWaits σ) (hout : Outcome o σ r es σ') (hend : ¬σ.EndsSiteWait r)
    (hnew : σ.NeedsSite r → (∀ ts m, r ≠ .missing ts m) ∧
      σ.QueueAll fun _ r' => r'.timestamp < r.timestamp) : SiteWaits σ' where
  toSited := h.toSited.exec hout
  waits T s hl := by
    rcases hout.siteWaitingMap_cases hl with ⟨hold, hrec⟩ | ⟨ts, v, rfl, hn, rfl⟩ |
      ⟨ts, v, rfl, hn⟩
    · obtain ⟨hlive, ts, v, hq, hn, rfl⟩ := h.waits T s hold
      have hT : T ∈ σ.siteWaitingMap := Dict.mem_of_lookup hold
      obtain ⟨hlive', hab⟩ := hout.live_of_not_ends hend hT hlive
      exact ⟨hlive', ts, v, (hout.queued hq).resolve_right hab,
        ⟨hn.1, h.toSited.unreadable hout hn.1 hn.2 hrec⟩, rfl⟩
    · -- the read that starts to wait is entered into the queue
      obtain ⟨rfl, hT⟩ := h.toSited.waits_of_needsSite hout hn
      have hlive : T ∈ σ.transactions := hT.elim h.live id
      refine ⟨hout.mem_transactions.mpr ⟨Or.inl hlive, by simp, by simp⟩, ts, v,
        hout.queued_of_waits (Or.inr (List.mem_singleton_self _)) fun rs r' hrs hr' heq => ?_,
        ⟨hn.1, h.toSited.unreadable hout hn.1 hn.2 (by simp)⟩, rfl⟩
      exact absurd (heq ▸ (hnew hn).2 _ rs r' hrs hr') (lt_irrefl _)
    · exact absurd rfl ((hnew hn).1 ts _)

end SiteWaits

/-! ### Calls -/

/-- Resolving the deadlocks aborts no transaction that waits for a site. -/
def SparesSiteWaits (sch : Schedule) (σ : State) : Prop :=
  ∀ τ ∈ (σ.resolved sch).toOption, ∀ T ∈ σ.siteWaitingMap.keys, T ∈ τ.transactions

instance (sch : Schedule) (σ : State) : Decidable (SparesSiteWaits sch σ) :=
  inferInstanceAs (Decidable (∀ τ ∈ (σ.resolved sch).toOption,
    ∀ T ∈ σ.siteWaitingMap.keys, T ∈ τ.transactions))

lemma Sited.settled : Settled Sited where
  graph h _ := h.congr rfl rfl
  abort h ha := h.abortTransaction ha
  request h := h.congr rfl rfl

/-- Resolving the deadlocks leaves the sites and the site waiting map, and the blocked requests of
the transactions that stay live. -/
lemma sites_resolved (h : σ.resolved sch = .ok τ) : τ.siteWaitingMap = σ.siteWaitingMap ∧
    (∀ s v, τ.isReadAvailable s v = σ.isReadAvailable s v) ∧
    ∀ T ∈ τ.transactions, T ∈ σ.transactions ∧
      τ.blockedTransactionsQueue.lookup T = σ.blockedTransactionsQueue.lookup T := by
  have hk : Settled fun τ => τ.siteWaitingMap = σ.siteWaitingMap ∧
      (∀ s v, τ.isReadAvailable s v = σ.isReadAvailable s v) ∧
      ∀ T ∈ τ.transactions, T ∈ σ.transactions ∧
        τ.blockedTransactionsQueue.lookup T = σ.blockedTransactionsQueue.lookup T := {
    graph := fun h _ => h
    abort := fun {o T₁ σ₁ σ₂} h ha => by
      obtain ⟨h1, h2, h3⟩ := h
      obtain ⟨hg, hq, -⟩ := gone_abortTransaction ha
      refine ⟨hg.siteWaitingMap.trans h1, fun s v => (hg.readable s v).trans (h2 s v),
        fun T hT => ?_⟩
      obtain ⟨hT, hne⟩ := hg.mem_transactions.mp hT
      refine ⟨(h3 T hT).1, ?_⟩
      rw [hq, Dict.lookup_erase, if_neg hne]
      exact (h3 T hT).2
    request := fun h => h }
  exact (hk.resolveDeadlocks ⟨rfl, fun _ _ => rfl, fun _ hT => ⟨hT, rfl⟩⟩ h).1

lemma SiteWaits.resolved (h : SiteWaits σ) (hs : σ.SparesSiteWaits sch)
    (hτ : σ.resolved sch = .ok τ) : SiteWaits τ where
  toSited := (Sited.settled.resolveDeadlocks h.toSited hτ).1
  waits T s hl := by
    obtain ⟨hmap, hre, hlive⟩ := sites_resolved hτ
    rw [hmap] at hl
    obtain ⟨-, ts, v, ⟨rs, hrs, hr⟩, hn, hhome⟩ := h.waits T s hl
    have hT := hs τ (by rw [hτ]; rfl) T (AList.mem_keys.mp (Dict.mem_of_lookup hl))
    exact ⟨hT, ts, v, ⟨rs, (hlive T hT).2.trans hrs, hr⟩, ⟨hn.1, (hre _ _).trans hn.2⟩, hhome⟩

/-- A request that is taken from the queue ends no transaction that waits for a site, and does not
start to wait for one. -/
def SettlesSites (r : Request) (σ : State) : Prop := ¬σ.EndsSiteWait r ∧ ¬σ.NeedsSite r

/-- The walk over the queue visits transactions alone that do not wait for sites. -/
lemma walks_siteWaits : Walks SettlesSites SiteWaits fun _ => SiteWaits := by
  have hexec : ∀ {o r σ σ'}, SiteWaits σ → SettlesSites r σ → σ.exec o r = .ok σ' → SiteWaits σ' ∧
      ∀ T ∉ σ.siteWaitingMap, T ∉ σ'.siteWaitingMap := by
    intro o r σ σ' h hC hx
    obtain ⟨es, hout⟩ := exec_outcome hx
    refine ⟨h.exec hout hC.1 fun hn => absurd hn hC.2, fun T hT hT' => ?_⟩
    obtain ⟨s, hs⟩ := Dict.exists_lookup hT'
    rcases hout.siteWaitingMap_cases hs with ⟨hold, -⟩ | ⟨ts, v, -, hn, -⟩ | ⟨ts, m, -, hn⟩
    · exact hT (Dict.mem_of_lookup hold)
    · exact hC.2 hn
    · exact hC.2 hn
  refine WalkRule.walks (I := fun _ fin σ => SiteWaits σ ∧ ∀ T ∈ fin, T ∉ σ.siteWaitingMap)
    (J := fun T _ _ fin σ => SiteWaits σ ∧ T ∉ σ.siteWaitingMap ∧ ∀ T' ∈ fin, T' ∉ σ.siteWaitingMap)
    (fun sch => {
      skip := fun h _ => h
      enter := fun h _ _ hs => ⟨h.1, of_decide_eq_false hs, h.2⟩
      exec := fun ⟨h, hT, hfin⟩ hC hx => by
        obtain ⟨h', hkeep⟩ := hexec h hC hx
        exact ⟨h', hkeep _ hT, fun T' hT' => hkeep T' (hfin T' hT')⟩
      leave := fun ⟨h, hT, hfin⟩ _ => ⟨h, fun T' hT' => by
        rcases List.mem_insert_iff.mp hT' with rfl | hT'
        · exact hT
        · exact hfin T' hT'⟩ })
    (fun h => ⟨h, fun T hT => by cases hT⟩) (fun {o fin σ} ⟨h, hfin⟩ => ?_) fun h => h.1
  refine ⟨h.toSited.congr rfl rfl, fun T s hl => ?_⟩
  obtain ⟨hlive, ts, v, ⟨rs, hrs, hr⟩, hn, hhome⟩ := h.waits T s hl
  have hT : T ∈ σ.siteWaitingMap := Dict.mem_of_lookup (by exact hl)
  refine ⟨hlive, ts, v, ⟨rs, ?_, hr⟩, hn, hhome⟩
  refine (Dict.lookup_foldl_erase _ _ T).trans ((if_neg fun hmem => ?_).trans hrs)
  exact hfin T ((o.mem_visit).mp hmem) hT

end State

end RepCRec
