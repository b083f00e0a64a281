import RepCRec.Guarantees.LockedReads
import RepCRec.Schedules.Requests

/-!
What the trace tells about a run. Replaying it leads to the data of the run: the sites, the live
transactions and what is pending for them (`replay`). Every value that is read is explained by the
trace before the read, and it is the initial one or was stored by a transaction that has committed
(`reads_committed`).
-/

namespace RepCRec

open AvailableCopies (Config Step Steps)
open Serial (lastWrite)

/-- What an entry of the trace does to the live transactions. -/
def Event.redoLive (live : List TranId) : Event → List TranId
  | .created T _ => T :: live
  | .committed T | .aborted T => live.filter (· ≠ T)
  | _ => live

/-- The live transactions after the entries of the trace. -/
def liveAfter (trace : List Event) : List TranId := trace.foldl Event.redoLive []

/-- What is pending for `T` at a copy after the entries of the trace. -/
def pendingAfter (trace : List Event) (T : TranId) (s : SiteId) (v : VarId) : Option Value :=
  if ((redo trace s).vars v).exclusiveLockOwner = some T then lastWrite (accesses trace T) v
  else none

section Live

variable {c c' : Config SiteId VarId TranId Value} {es : List Event} {e : Event} {L : List TranId}

lemma live_redoLive {a : AvailableCopies.Action SiteId VarId TranId Value}
    (h : ∀ T, c.live T ↔ T ∈ L) (ha : e.Acts a) (hs : Step copies c a c') (T : TranId) :
    c'.live T ↔ T ∈ e.redoLive L := by
  cases ha with
  | created =>
      cases hs
      show c.live T ∨ T = _ ↔ _
      rw [h, Event.redoLive, List.mem_cons, or_comm]
  | committed =>
      cases hs
      show c.live T ∧ T ≠ _ ↔ _
      simp [h, Event.redoLive]
  | aborted =>
      cases hs
      show c.live T ∧ T ≠ _ ↔ _
      simp [h, Event.redoLive]
  | _ =>
      cases hs
      exact h T

lemma redoLive_of_silent (ha : e.action? = none) : e.redoLive L = L := by
  cases e with
  | created | committed | aborted => cases ha
  | _ => rfl

/-- **The live transactions** are those of the trace. -/
theorem live_of_steps (h : ∀ T, c.live T ↔ T ∈ L) (hs : Steps copies c (actions es) c')
    (T : TranId) : c'.live T ↔ T ∈ es.foldl Event.redoLive L := by
  induction es generalizing c L with
  | nil =>
      obtain rfl := hs.of_nil
      exact h T
  | cons e es ih =>
      rw [List.foldl_cons]
      cases ha : e.action? with
      | none =>
          rw [actions, List.filterMap_cons_none ha] at hs
          rw [redoLive_of_silent ha]
          exact ih h hs
      | some a =>
          rw [actions, List.filterMap_cons_some ha] at hs
          cases hs with
          | cons hstep hrest =>
              exact ih (live_redoLive h (Event.acts_of_action? ha) hstep) hrest

end Live

section Runs

variable {l : List Feed} {σ τ : State} {tr₁ tr₂ : List Event} {T : TranId} {s : SiteId} {v : VarId}
  {x : Value}

lemma live_iff_liveAfter (hR : State.Reached l σ) : T ∈ σ.transactions ↔ T ∈ liveAfter σ.trace :=
  live_of_steps (fun T => by simp [State.view, State.initial]) hR.simulation.steps T

/-- What is pending is the last write, at the copies that are locked for it. -/
lemma pending_eq_pendingAfter (hR : State.Reached l σ) (hw : State.WritesPending σ)
    (hs : σ.sites = redo σ.trace) : σ.pending T s v = pendingAfter σ.trace T s v := by
  have hinv := hR.good.inv
  have hexcl : σ.view.excl T s v ↔ ((redo σ.trace s).vars v).exclusiveLockOwner = some T := by
    rw [← hs]
    rfl
  rw [pendingAfter]
  by_cases hx : σ.view.excl T s v
  · rw [if_pos (hexcl.mp hx)]
    obtain ⟨y, hy⟩ := Option.ne_none_iff_exists'.mp (hinv.pending_iff.mpr hx)
    exact hy.trans ((hw T (hinv.excl_live hx) v y).mpr ⟨s, hy⟩).symm
  · rw [if_neg fun h => hx (hexcl.mpr h)]
    by_contra hne
    exact hx (hinv.pending_iff.mp hne)

/-- **Replay.** Replaying the trace leads to the data of the run: to the sites, with the values and
the versions of all copies, their locks and their availability, and to the live transactions with
their pending writes. -/
theorem replay (ha : Admissible l) (hm : Meets l σ) :
    σ.sites = redo σ.trace ∧ (∀ T, T ∈ σ.transactions ↔ T ∈ liveAfter σ.trace) ∧
      ∀ T s v, σ.pending T s v = pendingAfter σ.trace T s v := by
  have hs := sites_of_meets ha hm
  obtain ⟨l', hR, hw⟩ : ∃ l', State.Reached l' σ ∧ State.WritesPending σ := by
    rcases hm with hr | ⟨r, hc⟩
    · exact ⟨l, reached_reaches ha hr,
        ((accessing_invariant fun _ _ => True).reaches ha (by simp) hr).2.2⟩
    · obtain ⟨l', hR, h⟩ := (accessing_invariant fun _ _ => True).called ha (by simp) hc
      exact ⟨l', hR, h.2.2⟩
  exact ⟨hs, fun T => live_iff_liveAfter hR, fun T s v => pending_eq_pendingAfter hR hw hs⟩

/-- The second transaction reads what the first has committed, after the failure of a site, and has
a pending write. -/
def replayedRun : List Feed :=
  inOrder Schedule.stored [.begin 1, .write 1 2 7, .finish 1, .fail 3, .begin 2, .read 2 2,
    .write 2 4 9]

theorem replay_replayedRun : ∃ σ, Reaches replayedRun σ ∧ σ.sites = redo σ.trace ∧
    2 ∈ σ.transactions ∧ σ.pending 2 s1 ⟨4, by decide, by decide⟩ = some 9 := by
  obtain ⟨σ, hr, hf⟩ := exists_ok_of_eval (x := run replayedRun)
    (f := fun σ => (liveAfter σ.trace, pendingAfter σ.trace 2 s1 ⟨4, by decide, by decide⟩))
    (a := ([2], some 9)) (by decide +kernel)
  rw [Prod.mk.injEq] at hf
  obtain ⟨hs, hlive, hp⟩ := replay (by decide +kernel) (Or.inl (.run hr))
  exact ⟨σ, .run hr, hs, (hlive 2).mpr (by simp [hf.1]), (hp 2 s1 _).trans hf.2⟩

/-! ### What is read -/

/-- Live transactions were begun by requests that `C` holds of, with their timestamps, and what is
stored was committed. -/
structure State.Sourced (C : Request → State → Prop) (σ : State) : Prop where
  begun : ∀ {T t}, σ.transactions.lookup T = some t →
    ∃ τ, C (.create t.timestamp T t.isReadOnly) τ
  committed : ∀ {T s v x k}, .installs T s v x k ∈ σ.trace → .committed T ∈ σ.trace

theorem sourced_invariant (C : Request → State → Prop) :
    HistoryInvariant C fun _ => State.Sourced C where
  initial := ⟨fun h => by simp [State.initial] at h, fun h => by simp [State.initial] at h⟩
  congr h _ ht htr := ⟨fun hl => h.begun (ht ▸ hl), fun hi => htr ▸ h.committed (htr ▸ hi)⟩
  abort _ h ha := by
    obtain ⟨hg, -, htr⟩ := State.gone_abortTransaction ha
    refine ⟨fun {T t'} hl => ?_, fun hi => ?_⟩
    · obtain ⟨t, ht, hfix⟩ := Option.map_eq_some_iff.mp (hg.fixed hl)
      have hts : t.timestamp = t'.timestamp := congrArg Prod.fst hfix
      have hro : t.isReadOnly = t'.isReadOnly := congrArg (fun p => p.2.1) hfix
      exact hts ▸ hro ▸ h.begun ht
    · rw [htr] at hi ⊢
      exact List.mem_append_left _ (h.committed (by simpa using hi))
  exec _ _ _ h hC _ hout := by
    refine ⟨fun hl => ?_, fun hi => ?_⟩
    · rcases hout.transaction hl with ⟨t, ht, hafter⟩ | ⟨ts, b, rfl, rfl⟩
      · rw [hafter.timestamp, hafter.isReadOnly]
        exact h.begun ht
      · exact ⟨_, hC⟩
    · rw [hout.trace, List.mem_append] at hi ⊢
      exact hi.imp h.committed hout.committed_of_installs
  mono _ h := h

/-- The value of a copy, or the one that it had at some time, is the initial one or was stored. -/
lemma getValue_redo {tr : List Event} {k : Timestamp}
    (h : ((redo tr s).vars v).getValue k = some x) :
    x = v.id * 10 ∨ ∃ T k', .installs T s v x k' ∈ tr := by
  have hst := stores_redo tr s v
  rw [Variable.getValue] at h
  split_ifs at h with hk
  · rw [Option.some.injEq, hst.value] at h
    cases hlast : (installsAt tr s v).getLast? with
    | none =>
        rw [hlast] at h
        exact Or.inl h.symm
    | some p =>
        rw [hlast] at h
        obtain ⟨T, hi⟩ := mem_installsAt.mp (List.mem_of_getLast? hlast)
        exact Or.inr ⟨T, p.1, h ▸ hi⟩
  · rw [hst.versions] at h
    obtain ⟨k', hmem⟩ := Container.mem_of_floor h
    rcases Container.mem_of_mem_assignAll hmem with hinit | hmem
    · exact Or.inl (congrArg Prod.snd (List.mem_singleton.mp hinit))
    · obtain ⟨T, hi⟩ := mem_installsAt.mp hmem
      exact Or.inr ⟨T, k', hi⟩

/-- A shared lock changes nothing but the owners of the copies. -/
lemma redo_sharedLock (tr : List Event) (T' : TranId) (w : VarId) (L : List SiteId) (s : SiteId)
    (v : VarId) :
    siteUp (tr ++ [.sharedLock T' w L]) s = siteUp tr s ∧
    copyReadable (tr ++ [.sharedLock T' w L]) s v = copyReadable tr s v ∧
    ∀ k, ((redo (tr ++ [.sharedLock T' w L]) s).vars v).getValue k =
      ((redo tr s).vars v).getValue k := by
  have happ : redo (tr ++ [.sharedLock T' w L]) =
      changeCopies L w (fun x => x.addSharedTransaction T') (redo tr) := redo_append
  refine ⟨?_, ?_, fun k => ?_⟩
  · rw [siteUp, happ, writeAvailable_changeCopies, siteUp]
  · rw [copyReadable, happ, readAvailable_changeCopies, copyReadable]
  · rw [happ, vars_changeCopies]
    split_ifs
    · rw [Variable.getValue, Variable.value_addSharedTransaction,
        Variable.versions_addSharedTransaction, Variable.getValue]
    · rfl

/-- Before a read its request has at most added the shared lock. -/
lemma State.Outcome.before_read {o : Container.IterOrder} {r : Request} {σ' : State}
    {es₁ es₂ : List Event} (h : Outcome o σ r (es₁ ++ .reads T s v x :: es₂) σ') :
    es₁ = [] ∨ ∃ L, es₁ = [.sharedLock T v L] := by
  obtain ⟨ts, t, rfl, ht, -⟩ := h.reads_mem (s := s) (v := v) (x := x) (T := T) (by simp)
  cases hro : t.isReadOnly with
  | false =>
      obtain ⟨L, ⟨h1, -⟩ | ⟨h1, -⟩⟩ := h.read_shares ht hro
      · exact Or.inl h1
      · exact Or.inr ⟨L, h1⟩
  | true =>
      generalize heq : es₁ ++ Event.reads T s v x :: es₂ = es at h
      have hmem : Event.reads T s v x ∈ es := heq ▸ by simp
      cases h with
      | readsVersion =>
          obtain ⟨h1, -⟩ | ⟨-, h2⟩ := List.singleton_eq_append_iff.mp heq.symm
          · exact Or.inl h1
          · cases h2
      | sharesOdd ht' hro' | sharesEven ht' hro' =>
          rw [ht] at ht'
          cases ht'
          rw [hro] at hro'
          cases hro'
      | unavailable => simp at hmem
      | waitsForLock => simp at hmem
      | waitsForSite => simp at hmem
      | readAborts => simp at hmem

/-- **Reads are explained** by the trace before them: a live transaction reads at a site that is up,
either the current value of the copy, or, when it is read-only, the version at the timestamp of its
begin of a copy that is readable. What is read is never dirty: it is the initial value, or another
transaction has stored it there and committed. -/
theorem reads_committed (ha : Admissible l) (hr : Reaches l σ)
    (htr : σ.trace = tr₁ ++ .reads T s v x :: tr₂) :
    T ∈ liveAfter tr₁ ∧ s ∈ copies v ∧ siteUp tr₁ s = true ∧
    (((redo tr₁ s).vars v).getValue = some x ∨ copyReadable tr₁ s v = true ∧
      ∃ k, Fed l (.create k T true) ∧ ((redo tr₁ s).vars v).getValue k = some x) ∧
    (x = v.id * 10 ∨ ∃ T' k, T' ≠ T ∧ .installs T' s v x k ∈ tr₁ ∧ .committed T' ∈ tr₁) := by
  rcases placed_reaches ha hr _ _ _ htr with ⟨T', hT'⟩ | ⟨r, τ, es₁, es₂, hp⟩
  · cases hT'
  obtain ⟨o, τ', -, hout⟩ := hp.outcome
  obtain ⟨l', hm⟩ := met_called ha hp.assumed
  obtain ⟨-, -, hsrc⟩ := (sourced_invariant (CalledDuring l)).called ha (fun _ _ => id) hp.assumed
  obtain ⟨ts, t, rfl, ht, hcase⟩ := hout.reads_mem (s := s) (v := v) (x := x) (T := T) (by simp)
  have hT := Dict.mem_of_lookup ht
  -- the entries of the request before the read are of no account
  obtain ⟨hlive, hup, hread, hget, hmem⟩ : liveAfter tr₁ = liveAfter τ.trace ∧
      siteUp tr₁ s = τ.isWriteAvailable s ∧ copyReadable tr₁ s v = τ.isReadAvailable s v ∧
      (∀ k, ((redo tr₁ s).vars v).getValue k = (τ.getVariable s v).getValue k) ∧
      ∀ e, e ∈ τ.trace → e ∈ tr₁ := by
    rw [hp.before, State.isWriteAvailable, State.isReadAvailable, State.getVariable, hm.sites]
    rcases hout.before_read with rfl | ⟨L, rfl⟩
    · rw [List.append_nil]
      exact ⟨rfl, rfl, rfl, fun _ => rfl, fun _ => id⟩
    · obtain ⟨h1, h2, h3⟩ := redo_sharedLock τ.trace T v L s v
      refine ⟨?_, h1, h2, h3, fun e => List.mem_append_left _⟩
      rw [liveAfter, List.foldl_append, ← liveAfter]
      rfl
  have hinv := hm.reached.good.inv
  rw [hlive, hup, hread]
  refine ⟨(live_iff_liveAfter hm.reached).mp hT, ?_⟩
  -- what the copy gives was stored and committed
  have hclean : ∀ k, ((redo tr₁ s).vars v).getValue k = some x →
      x = v.id * 10 ∨ ∃ T' k, T' ≠ T ∧ .installs T' s v x k ∈ tr₁ ∧ .committed T' ∈ tr₁ := by
    intro k hk
    rw [hget, State.getVariable, hm.sites] at hk
    refine (getValue_redo hk).imp id ?_
    rintro ⟨T', k', hi⟩
    have hc := hsrc.committed hi
    refine ⟨T', k', ?_, hmem _ hi, hmem _ hc⟩
    rintro rfl
    exact hm.accessing.dead hc hT
  rcases hcase with ⟨hro, hs, hr', hx⟩ | ⟨-, hst, hs, rfl, -⟩
  · have hx' : ((redo tr₁ s).vars v).getValue t.timestamp = some x := (hget _).trans hx
    obtain ⟨τ₀, hc⟩ := hsrc.begun ht
    rw [hro] at hc
    exact ⟨mem_copySites.mp hs, hinv.readable_up hr',
      Or.inr ⟨hr', _, fed_of_called hc, hx'⟩, hclean _ hx'⟩
  · obtain ⟨hs', hup'⟩ := (State.granted_sites (Or.inr hst) s).mp hs
    have hx' : ((redo tr₁ s).vars v).getValue = some (τ.getVariable s v).value := hget _
    exact ⟨hs', hup', Or.inl hx', hclean _ hx'⟩

theorem reads_committed_replayedRun : ∃ σ tr₁ tr₂, Reaches replayedRun σ ∧
    σ.trace = tr₁ ++ .reads 2 s10 x2 7 :: tr₂ ∧
    ∃ T' k, T' ≠ 2 ∧ .installs T' s10 x2 7 k ∈ tr₁ ∧ .committed T' ∈ tr₁ := by
  obtain ⟨σ, hr, hf⟩ := exists_ok_of_eval (x := run replayedRun)
    (f := fun σ => decide (.reads 2 s10 x2 7 ∈ σ.trace)) (a := true) (by decide +kernel)
  obtain ⟨tr₁, tr₂, htr⟩ := List.append_of_mem (of_decide_eq_true hf)
  obtain ⟨-, -, -, -, hclean⟩ := reads_committed (by decide +kernel) (.run hr) htr
  exact ⟨σ, tr₁, tr₂, .run hr, htr, hclean.resolve_left (by decide)⟩

end Runs

end RepCRec
