import RepCRec.Engine.Progress
import RepCRec.Guarantees.Replication
import RepCRec.Refinement.Stamps

/-!
The reads of read-only transactions. A read takes the version of a copy with the greatest timestamp
up to the begin of its transaction. It is that of the last commit before the begin exactly when the
copy has received this commit and no other one with a timestamp between the two
(`snapshot_reads`). A copy that was down during a commit is readable again after the next one
(`snapshot_missed`).
-/

namespace RepCRec

open Container (IterOrder SortedByKey bind_eq_ok ok_bind floor_eq_some_iff floor_eq_none_iff
  exists_mem_assignAll mem_of_mem_assignAll)

/-! ### The last commit of a variable -/

/-- A store of `v`: its timestamp and its value. -/
def Event.store? (v : VarId) : Event → Option (Timestamp × Value)
  | .installs _ _ v' x ts => if v' = v then some (ts, x) else none
  | _ => none

/-- The last store of `v` in the trace, in any copy. -/
def lastStore (trace : List Event) (v : VarId) : Option (Timestamp × Value) :=
  (trace.filterMap (Event.store? v)).getLast?

/-- The timestamp of the last commit of `v`, which is `-1` for the initial value. -/
def lastStamp (trace : List Event) (v : VarId) : Timestamp :=
  ((lastStore trace v).map Prod.fst).getD (-1)

lemma lastStore_snoc (trace : List Event) (e : Event) (v : VarId) :
    lastStore (trace ++ [e]) v = (e.store? v).or (lastStore trace v) := by
  rw [lastStore, List.filterMap_append, List.getLast?_append, lastStore]
  cases h : e.store? v with
  | none => simp [h]
  | some p => simp [h]

/-- The last store leaves its value in the database. -/
lemma committed_eq_lastStore (trace : List Event) (v : VarId) :
    committed trace v = ((lastStore trace v).map Prod.snd).getD (v.id * 10) := by
  induction trace using List.reverseRecOn with
  | nil => rfl
  | append_singleton trace e ih =>
      rw [committed_append, List.foldl_cons, List.foldl_nil, lastStore_snoc]
      cases e with
      | installs T s v' x ts =>
          by_cases hv : v' = v
          · subst hv
            simp [Event.store, Event.store?]
          · simp [Event.store, Event.store?, hv, Ne.symm hv, ih]
      | _ => exact ih

lemma mem_of_lastStore {trace : List Event} {v : VarId} {p : Timestamp × Value}
    (h : lastStore trace v = some p) : ∃ T s, .installs T s v p.2 p.1 ∈ trace := by
  obtain ⟨e, he, hp⟩ := List.mem_filterMap.mp (List.mem_of_getLast? h)
  cases e with
  | installs T s v' x ts =>
      rw [Event.store?] at hp
      split_ifs at hp with hv
      subst hv
      cases hp
      exact ⟨T, s, he⟩
  | _ => cases hp

/-- The version that is read at the time `t` is the one with the timestamp `k`. -/
def Variable.VersionRead (x : Variable) (t k : Timestamp) : Prop :=
  (∃ y, (k, y) ∈ x.versions) ∧ k ≤ t ∧ ∀ q ∈ x.versions, q.1 ≤ k ∨ t < q.1

namespace State

variable {l : List Feed} {σ : State} {T : TranId} {t : Transaction} {tr tr' : List Event}
  {s : SiteId}
  {v : VarId} {x : Value}

/-- The copy of `v` at `s` has received the last commit of `v` in the trace `tr`, and no other one
with a timestamp after it and up to `b`. -/
def HasSnapshot (σ : State) (tr : List Event) (b : Timestamp) (s : SiteId) (v : VarId) : Prop :=
  (lastStamp tr v = -1 ∨ ∃ y, (lastStamp tr v, y) ∈ installsAt σ.trace s v) ∧
    ∀ p ∈ installsAt σ.trace s v, p.1 ≤ lastStamp tr v ∨ b < p.1

/-- The first site with a readable copy of `v`. -/
def firstReadable (σ : State) (v : VarId) : Option SiteId :=
  (copySites v).find? fun s => σ.isReadAvailable s v

/-- The first readable copy has received the last commit of `v` in the trace `tr`, and no other one
with a timestamp after it and up to `b`. -/
def SnapshotReadable (σ : State) (tr : List Event) (b : Timestamp) (v : VarId) : Prop :=
  ∀ s, σ.firstReadable v = some s → σ.HasSnapshot tr b s v

/-- The read of `v` takes the version of the last commit of `v` in the trace `tr`. -/
def ReadsSnapshot (σ : State) (ts : Timestamp) (T : TranId) (v : VarId) (b : Timestamp)
    (tr : List Event) : Prop :=
  ∀ o σ' es s x, σ.exec o (.read ts T v) = .ok σ' → σ'.trace = σ.trace ++ es →
    .reads T s v x ∈ es →
      (σ.getVariable s v).VersionRead b (lastStamp tr v) ∧ x = committed tr v

/-- A read-only transaction reads the first readable copy. -/
lemma exec_read_readOnly {o : IterOrder} {ts : Timestamp}
    (ht : σ.transactions.lookup T = some t) (hro : t.isReadOnly = true)
    (hs : σ.firstReadable v = some s) :
    σ.exec o (.read ts T v) = σ.readVersion T t.timestamp s v := by
  rw [exec, execRead, getTransaction_eq_ok.mpr ht, ok_bind, if_pos hro, handleReadOnlyRequest,
    getTransaction_eq_ok.mpr ht, ok_bind]
  rw [firstReadable, copySites] at hs
  cases hv : v.isOdd with
  | true =>
      rw [hv, if_pos rfl] at hs
      have hr := List.find?_some (p := fun s => σ.isReadAvailable s v) hs
      obtain rfl : s = v.home := List.mem_singleton.mp (List.mem_of_find?_eq_some hs)
      rw [if_pos rfl, if_pos hr]
  | false =>
      rw [hv, if_neg Bool.false_ne_true] at hs
      rw [if_neg Bool.false_ne_true, hs]

/-- The copy that is read is the first readable one. -/
lemma firstReadable_of_reads {o : IterOrder} {ts : Timestamp} {σ' : State} {es : List Event}
    (ht : σ.transactions.lookup T = some t) (hro : t.isReadOnly = true)
    (hx : σ.exec o (.read ts T v) = .ok σ') (htr : σ'.trace = σ.trace ++ es)
    (hes : .reads T s v x ∈ es) :
    σ.firstReadable v = some s ∧ (σ.getVariable s v).getValue t.timestamp = some x := by
  obtain ⟨es', hout⟩ := exec_outcome hx
  obtain rfl : es = es' := List.append_cancel_left (htr.symm.trans hout.trace)
  obtain ⟨ts', t', -, ht', hcase⟩ := hout.reads_mem hes
  rw [ht] at ht'
  cases ht'
  rcases hcase with ⟨-, hs, hr, -⟩ | ⟨hno, -⟩
  · -- some copy is readable, so the request is the read of a version
    obtain ⟨s', hs'⟩ := Option.ne_none_iff_exists'.mp fun hnone : σ.firstReadable v = none =>
      List.find?_eq_none.mp hnone s hs hr
    rw [exec_read_readOnly ht hro hs', readVersion] at hx
    cases hval : (σ.getVariable s' v).getValue t.timestamp with
    | none =>
        rw [hval] at hx
        cases hx
    | some y =>
        simp only [hval] at hx
        rw [bind_eq_ok] at hx
        obtain ⟨σ₁, h1, hx⟩ := hx
        cases hx
        have htr₁ : σ₁.trace = σ.trace := trace_modifyTransaction h1
        rw [trace_emit, htr₁] at htr
        obtain rfl := List.append_cancel_left htr
        cases List.mem_singleton.mp hes
        exact ⟨hs', hval⟩
  · rw [hro] at hno
    cases hno

namespace Stamped

lemma sorted_versions (h : Stamped l σ) (s : SiteId) (v : VarId) :
    SortedByKey Prod.fst (σ.getVariable s v).versions := by
  rw [(h.stored s v).versions]
  exact SortedByKey.assignAll (List.pairwise_singleton _ _) _

/-- The versions of a copy are its stores, and the initial one. -/
lemma mem_versions_key (h : Stamped l σ) {k : Timestamp} :
    (∃ y, (k, y) ∈ (σ.getVariable s v).versions) ↔
      k = -1 ∨ ∃ y, (k, y) ∈ installsAt σ.trace s v := by
  rw [(h.stored s v).versions, exists_mem_assignAll]
  simp [Variable.initial, exists_or]

lemma lastStamp_le (h : Stamped l σ) (ht : σ.transactions.lookup T = some t) {b : Bool}
    (htr : σ.trace = tr ++ .created T b :: tr') : lastStamp tr v ≤ t.timestamp := by
  have h0 : 0 ≤ t.timestamp := h.nonneg ht
  rw [lastStamp]
  cases hl : lastStore tr v with
  | none => exact (show (-1 : ℤ) ≤ 0 by decide).trans h0
  | some p =>
      obtain ⟨T', s', hmem⟩ := mem_of_lastStore hl
      exact (h.before ht htr hmem).le

/-- The version read is that of the last commit exactly when the copy has it. -/
lemma versionRead_iff (h : Stamped l σ) (ht : σ.transactions.lookup T = some t) {b : Bool}
    (htr : σ.trace = tr ++ .created T b :: tr') :
    (σ.getVariable s v).VersionRead t.timestamp (lastStamp tr v) ↔
      σ.HasSnapshot tr t.timestamp s v := by
  have hle : lastStamp tr v ≤ t.timestamp := h.lastStamp_le ht htr
  have h0 : (-1 : ℤ) ≤ lastStamp tr v := by
    rw [lastStamp]
    cases hl : lastStore tr v with
    | none => exact le_rfl
    | some p =>
        obtain ⟨T', s', hmem⟩ := mem_of_lastStore hl
        have hstamp : 0 ≤ p.1 := h.stamp (htr ▸ List.mem_append_left _ hmem)
        exact (show (-1 : ℤ) ≤ 0 by decide).trans hstamp
  rw [Variable.VersionRead, HasSnapshot, h.mem_versions_key, and_iff_right hle]
  refine and_congr_right fun _ => ⟨fun hall p hp => ?_, fun hall q hq => ?_⟩
  · obtain ⟨y, hy⟩ := h.mem_versions_key.mpr (Or.inr ⟨p.2, hp⟩)
    exact hall (p.1, y) hy
  · rcases h.mem_versions_key.mp ⟨q.2, hq⟩ with hq | ⟨y, hy⟩
    · exact Or.inl (hq ▸ h0)
    · exact hall (q.1, y) hy

/-- A copy that has the snapshot gives the value of the last commit. -/
lemma eq_committed (h : Stamped l σ) (ht : σ.transactions.lookup T = some t) {b : Bool}
    (htr : σ.trace = tr ++ .created T b :: tr') (hs : σ.HasSnapshot tr t.timestamp s v)
    (hx : (σ.getVariable s v).getValue t.timestamp = some x) : x = committed tr v := by
  have hne : t.timestamp ≠ -1 := by
    have h0 : 0 ≤ t.timestamp := h.nonneg ht
    rintro heq
    rw [heq] at h0
    exact absurd h0 (by decide)
  rw [Variable.getValue, if_neg hne, floor_eq_some_iff (h.sorted_versions s v)] at hx
  obtain ⟨k, hmem, hkt, hmax⟩ := hx
  obtain ⟨⟨y, hy⟩, hle, hlast⟩ := (h.versionRead_iff ht htr).mpr hs
  obtain rfl : k = lastStamp tr v := by
    refine le_antisymm ((hlast _ hmem).resolve_right hkt.not_gt) ?_
    exact (hmax _ hy).resolve_right hle.not_gt
  -- the version was stored by the last commit, or it is the initial one
  rw [(h.stored s v).versions] at hmem
  rw [committed_eq_lastStore]
  rw [lastStamp] at hmem
  cases hl : lastStore tr v with
  | none =>
      rw [hl] at hmem
      rcases mem_of_mem_assignAll hmem with hinit | hmem
      · exact congrArg Prod.snd (List.mem_singleton.mp hinit)
      · obtain ⟨T', hi⟩ := mem_installsAt.mp hmem
        have hstamp : (0 : ℤ) ≤ -1 := h.stamp hi
        exact absurd hstamp (by decide)
  | some p =>
      obtain ⟨T', s', hp⟩ := mem_of_lastStore hl
      have hp' : .installs T' s' v p.2 p.1 ∈ σ.trace := htr ▸ List.mem_append_left _ hp
      rw [hl] at hmem
      rcases mem_of_mem_assignAll hmem with hinit | hmem
      · have hstamp : 0 ≤ p.1 := h.stamp hp'
        have heq : p.1 = -1 := congrArg Prod.fst (List.mem_singleton.mp hinit)
        rw [heq] at hstamp
        exact absurd hstamp (by decide)
      · obtain ⟨T'', hi⟩ := mem_installsAt.mp hmem
        exact h.same hi hp'

/-- Every copy has a version for a live transaction. -/
lemma exists_getValue (h : Stamped l σ) (ht : σ.transactions.lookup T = some t) (s : SiteId)
    (v : VarId) : ∃ x, (σ.getVariable s v).getValue t.timestamp = some x := by
  have h0 : 0 ≤ t.timestamp := h.nonneg ht
  rw [Variable.getValue]
  split_ifs with hne
  · exact ⟨_, rfl⟩
  · refine Option.ne_none_iff_exists'.mp fun hnone => ?_
    rw [floor_eq_none_iff (h.sorted_versions s v)] at hnone
    obtain ⟨y, hy⟩ := h.mem_versions_key.mpr (Or.inl rfl)
    exact absurd (hnone _ hy) ((show (-1 : ℤ) ≤ 0 by decide).trans h0).not_gt

/-- **A read takes the version of the last commit** exactly when the first readable copy has it. -/
theorem readsSnapshot_iff (h : Stamped l σ) {ts : Timestamp}
    (ht : σ.transactions.lookup T = some t) (hro : t.isReadOnly = true) {b : Bool}
    (htr : σ.trace = tr ++ .created T b :: tr') :
    σ.ReadsSnapshot ts T v t.timestamp tr ↔ σ.SnapshotReadable tr t.timestamp v := by
  constructor
  · intro hread s hs
    obtain ⟨x, hx⟩ := h.exists_getValue ht s v
    obtain ⟨σ₁, h1, -⟩ := exists_modifyTransaction (Dict.mem_of_lookup ht)
      fun t => t.addReadHistory s v x
    have hexec : σ.exec IterOrder.stored (.read ts T v) = .ok (σ₁.emit (.reads T s v x)) := by
      rw [exec_read_readOnly ht hro hs, readVersion]
      simp only [hx, h1]
      rfl
    have hread := hread _ _ [.reads T s v x] s x hexec
      (by rw [trace_emit, trace_modifyTransaction h1]) (List.mem_singleton_self _)
    exact (h.versionRead_iff ht htr).mp hread.1
  · intro hall o σ' es s x hx htr' hes
    obtain ⟨hs, hval⟩ := firstReadable_of_reads ht hro hx htr' hes
    exact ⟨(h.versionRead_iff ht htr).mpr (hall s hs), h.eq_committed ht htr (hall s hs) hval⟩

end Stamped

end State

section Runs

variable {l : List Feed}

/-- The run executes a read of `v` by the read-only transaction `T`; the trace was `tr` when the
transaction was begun. -/
structure SnapshotReadDuring (l : List Feed) (ts : Timestamp) (T : TranId) (v : VarId) (τ : State)
    (t : Transaction) (tr : List Event) : Prop where
  called : CalledDuring l (.read ts T v) τ
  live : τ.transactions.lookup T = some t
  readOnly : t.isReadOnly = true
  begun : ∃ tr', τ.trace = tr ++ .created T true :: tr'

/-- **Snapshot reads.** A read of a read-only transaction takes the version of the last commit
before its begin exactly when the first readable copy has received this commit, and no other one
with a timestamp after it and up to the begin; so where this holds of all reads, they all return the
value of the last commit before the begin of their transaction. -/
theorem snapshot_reads (ha : Admissible l) :
    (∀ ts T v τ t tr, SnapshotReadDuring l ts T v τ t tr →
      (τ.ReadsSnapshot ts T v t.timestamp tr ↔ τ.SnapshotReadable tr t.timestamp v)) ∧
    ((∀ ts T v τ t tr, SnapshotReadDuring l ts T v τ t tr →
        τ.SnapshotReadable tr t.timestamp v) →
      ∀ σ tr tr₁ tr₂ T s v x, Reaches l σ →
        σ.trace = tr ++ .created T true :: tr₁ ++ .reads T s v x :: tr₂ → x = committed tr v) := by
  have hiff : ∀ ts T v τ t tr, SnapshotReadDuring l ts T v τ t tr →
      (τ.ReadsSnapshot ts T v t.timestamp tr ↔ τ.SnapshotReadable tr t.timestamp v) := by
    intro ts T v τ t tr h
    obtain ⟨l', -, hs⟩ := (stamped_invariant fun _ _ => True).called ha (by simp) h.called
    obtain ⟨tr', htr⟩ := h.begun
    exact hs.readsSnapshot_iff h.live h.readOnly htr
  refine ⟨hiff, fun h σ tr tr₁ tr₂ T s v x hr htr => ?_⟩
  rcases traced_reaches ha hr _ _ tr₂ htr with ⟨T', hT'⟩ |
    ⟨r, τ, o, τ', es₁, es₂, hc, hx, hout, heq⟩
  · cases hT'
  have hes : Event.reads T s v x ∈ es₁ ++ .reads T s v x :: es₂ := by simp
  obtain ⟨ts, t, rfl, ht, -⟩ := hout.reads_mem hes
  obtain ⟨B, hB⟩ := created_called hc ha
  -- the entry for the begin of `T` is older than the read
  obtain ⟨tr', htr'⟩ : ∃ tr', τ.trace = tr ++ .created T true :: tr' := by
    rcases append_cons_eq_append heq.symm with ⟨tr', h', -⟩ | ⟨n, h1, -⟩
    · exact ⟨tr', h'⟩
    · have hmem : .created T true ∈ es₁ := by rw [h1]; simp
      obtain ⟨ts', hr'⟩ := hout.created_mem (List.mem_append_left _ hmem)
      cases hr'
  have hro : t.isReadOnly = true := hB.unique (hB.live ht) (by rw [htr']; simp)
  have hd : SnapshotReadDuring l ts T v τ t tr := ⟨hc, ht, hro, tr', htr'⟩
  exact ((hiff ts T v τ t tr hd).mpr (h ts T v τ t tr hd) o τ' _ s x hx hout.trace hes).2

/-- A read-only transaction begins after a commit. -/
def snapshotRun : List Feed :=
  inOrder Schedule.stored [.begin 1, .write 1 2 7, .finish 1, .beginRO 2, .read 2 2]

theorem snapshot_reads_snapshotRun : ∃ τ t tr, SnapshotReadDuring snapshotRun 4 2 x2 τ t tr ∧
    committed tr x2 = 7 ∧ τ.ReadsSnapshot 4 2 x2 t.timestamp tr := by
  obtain ⟨τ, hc, hf⟩ := exists_calledDuring (l := snapshotRun.take 4)
    (x := ⟨.read 2 2, 4, Schedule.stored⟩) (r := .read 4 2 x2)
    (f := fun τ => ((τ.transactions.lookup 2).map Transaction.isReadOnly, τ.trace.drop 13,
      committed (τ.trace.take 13) x2, decide (lastStamp (τ.trace.take 13) x2 = 2 ∧
        τ.firstReadable x2 = some s1 ∧ installsAt τ.trace s1 x2 = [(2, 7)])))
    (a := (some true, [.created 2 true], 7, true)) [] (by decide +kernel)
  simp only [Prod.mk.injEq, Option.map_eq_some_iff, decide_eq_true_iff] at hf
  obtain ⟨⟨t, ht, hro⟩, htr, hdb, hlast, hs, hin⟩ := hf
  have htr' : τ.trace = τ.trace.take 13 ++ .created 2 true :: [] := by
    rw [← htr, List.take_append_drop]
  have hd : SnapshotReadDuring snapshotRun 4 2 x2 τ t (τ.trace.take 13) := ⟨hc, ht, hro, [], htr'⟩
  refine ⟨τ, t, _, hd, hdb, ((snapshot_reads (by decide +kernel)).1 4 2 x2 τ t _ hd).mpr ?_⟩
  intro s hs'
  obtain rfl : s1 = s := Option.some.inj (hs.symm.trans hs')
  refine ⟨Or.inr ⟨7, by rw [hlast, hin]; exact List.mem_singleton_self _⟩, fun p hp => Or.inl ?_⟩
  rw [hin, List.mem_singleton] at hp
  rw [hp, hlast]

/-- The first site misses the commit of the first transaction, and is readable again after that of
the third one, when the second transaction reads. -/
def missedRun : List Feed :=
  inOrder Schedule.stored [.fail 1, .begin 1, .write 1 2 7, .finish 1, .recover 1, .beginRO 2,
    .begin 3, .write 3 2 9, .finish 3, .read 2 2]

/-- **A missed commit**: the read of a read-only transaction returns the value before the last
commit that was executed before its begin. -/
theorem snapshot_missed : Admissible missedRun ∧ ∃ σ tr tr₁ tr₂, Reaches missedRun σ ∧
    σ.trace = tr ++ .created 2 true :: tr₁ ++ .reads 2 s1 x2 20 :: tr₂ ∧ committed tr x2 = 7 := by
  obtain ⟨σ, hr, hf⟩ := exists_ok_of_eval (x := run missedRun)
    (f := fun σ => (σ.trace.drop 28, ((σ.trace.take 28).drop 14).take 1,
      committed ((σ.trace.take 28).take 14) x2))
    (a := ([.reads 2 s1 x2 20], [.created 2 true], 7)) (by decide +kernel)
  simp only [Prod.mk.injEq] at hf
  obtain ⟨hread, hcr, hdb⟩ := hf
  refine ⟨by decide +kernel, σ, (σ.trace.take 28).take 14, ((σ.trace.take 28).drop 14).drop 1, [],
    .run hr, ?_, hdb⟩
  have htr : (σ.trace.take 28).take 14 ++ .created 2 true :: ((σ.trace.take 28).drop 14).drop 1 =
      σ.trace.take 28 := by
    rw [← List.singleton_append, ← hcr, List.take_append_drop, List.take_append_drop]
  rw [htr, ← hread, List.take_append_drop]

end Runs

end RepCRec
