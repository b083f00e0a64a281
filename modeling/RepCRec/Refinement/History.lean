import RepCRec.Engine.Accesses
import RepCRec.Refinement.Runs

/-!
Invariants about the trace, the stored data and the transactions of a run (`HistoryInvariant`).
Such an invariant does not look at the wait-for graph and the blocked queue, so it has one
obligation for the requests that are executed, wherever they come from (`Executes`), and one for
the aborts that resolve deadlocks.

* `created_invariant`: the trace tells which transactions are read-only.
* `traced_reaches`: an entry of the trace that is no abort comes from a request that was executed.
-/

namespace RepCRec

open Container (IterOrder)

/-- After the instructions `l` the request `r` may be executed: it is that of the next instruction,
or it is in the queue. The instructions are `l'` then. -/
inductive Executes (l : List Feed) : List Feed → Request → Prop where
  | pending {x r} : AdmissibleNext l x → x.insr.request x.timestamp = .ok r →
      Executes l (l ++ [x]) r
  | queued {r} : Queueable l r → Executes l l r

namespace Executes

variable {l l' : List Feed} {r : Request}

lemma fed (h : Executes l l' r) : Fed l' r := by
  cases h with
  | pending _ hr => exact ⟨_, by simp, hr⟩
  | queued hq => exact hq.fed

lemma begun (h : Executes l l' r) {T : TranId} (hT : Begun l T) : Begun l' T := by
  cases h with
  | pending => exact begun_snoc.mpr (Or.inl hT)
  | queued => exact hT

/-- The variable or site of a request that is executed exists. -/
lemma ne_missing (h : Executes l l' r) (ha : Admissible l) (ts : Timestamp) (m : Missing) :
    r ≠ .missing ts m := by
  cases h with
  | pending hx hr => exact ne_missing_of_inRange hx.inRange hr ts m
  | queued hq => exact hq.fed.ne_missing ha ts m

/-- A begin is executed for a transaction that was not begun before. -/
lemma fresh (h : Executes l l' r) (hb : r.isBegin = true) :
    ¬Begun l r.transactionId ∧ Begun l' r.transactionId := by
  cases h with
  | pending hx hr =>
      refine ⟨?_, begun_snoc.mpr (Or.inr (begun_of_request hr hb))⟩
      rintro ⟨y, hy, hT⟩
      exact hx.begin_once _ (begun_of_request hr hb) y hy hT
  | queued hq =>
      rw [hq.not_begin] at hb
      cases hb

/-- A read or write is executed for a transaction that was begun before. -/
lemma begun_of_isReadWrite (h : Executes l l' r) (hrw : r.isReadWrite = true) :
    Begun l r.transactionId := by
  cases h with
  | pending hx hr => exact hx.access_after_begin _ (accessing_of_request hr hrw)
  | queued hq => exact hq.begun

end Executes

/-- An invariant of runs about the sites, the transactions and the trace, where `C` holds of every
request that is executed. -/
structure HistoryInvariant (C : Request → State → Prop) (Q : List Feed → State → Prop) : Prop where
  initial : Q [] State.initial
  congr : ∀ {l σ σ'}, Q l σ → σ'.sites = σ.sites → σ'.transactions = σ.transactions →
    σ'.trace = σ.trace → Q l σ'
  abort : ∀ {l o T σ σ'}, σ.Good → Q l σ → State.abortTransaction o T σ = .ok σ' → Q l σ'
  exec : ∀ {l l' r o es σ σ'}, Admissible l → Executes l l' r → State.Reached l σ → Q l σ →
    C r σ → σ.exec o r = .ok σ' → State.Outcome o σ r es σ' → Q l' σ'
  mono : ∀ {l x σ}, AdmissibleNext l x → Q l σ → Q (l ++ [x]) σ

namespace HistoryInvariant

variable {C : Request → State → Prop} {Q : List Feed → State → Prop} {l : List Feed} {r : Request}
  {σ τ : State}

lemma kept (hQ : HistoryInvariant C Q) (ha : Admissible l) :
    State.Kept C (fun σ => State.Reached l σ ∧ Q l σ) (Queueable l) := by
  have hk : State.Kept C (State.Reached l) (Queueable l) := State.Reached.kept
  refine ⟨⟨fun h hw => ⟨hk.graph h.1 hw, hQ.congr h.2 rfl rfl rfl⟩,
    fun h hab => ⟨hk.abort h.1 hab, hQ.abort h.1.good h.2 hab⟩,
    fun h => ⟨hk.request h.1, hQ.congr h.2 rfl rfl rfl⟩⟩, fun h => hk.queued h.1, ?_,
    fun h => ⟨hk.dequeue h.1, hQ.congr h.2 rfl rfl rfl⟩⟩
  intro o r σ σ' h hq hC hx
  obtain ⟨es, hout⟩ := State.exec_outcome hx
  exact ⟨hk.exec h.1 hq hC hx, hQ.exec ha (.queued hq) h.1 h.2 hC hx hout⟩

/-- **History invariants are invariants of runs.** -/
theorem invariant (hQ : HistoryInvariant C Q) : Invariant C
    (fun l σ => State.Reached l σ ∧ Q l σ)
    (fun l r τ => (State.Reached l τ ∧ Q l τ) ∧ Queueable l r) where
  initial := ⟨(reached_invariant C).initial, hQ.initial⟩
  settled _ ha := (hQ.kept ha).toSettled
  walks _ ha := (hQ.kept ha).walks
  mono ha hx h := ⟨(reached_invariant C).mono ha hx h.1, hQ.mono hx h.2⟩
  leads := by
    intro l x r ha hx hr
    have hl := (reached_invariant C).leads ha hx hr
    refine ⟨fun h hC hst hb he => ?_, fun h hst hb hrw => ⟨hl.enqueue h.1 hst hb hrw,
      hQ.congr (hQ.mono hx h.2) rfl rfl rfl⟩⟩
    obtain ⟨es, hout⟩ := State.exec_outcome he
    exact ⟨hl.exec h.1 hC hst hb he, hQ.exec ha (.pending hx hr) h.1 h.2 hC he hout⟩

lemma reaches (hQ : HistoryInvariant C Q) (ha : Admissible l)
    (hC : ∀ r τ, CalledDuring l r τ → C r τ) (h : Reaches l σ) : Q l σ :=
  (hQ.invariant.reaches ha hC h).1.2

lemma called (hQ : HistoryInvariant C Q) (ha : Admissible l)
    (hC : ∀ r τ, CalledDuring l r τ → C r τ) (h : CalledDuring l r τ) :
    ∃ l', State.Reached l' τ ∧ Q l' τ := by
  obtain ⟨l', -, h⟩ := hQ.invariant.called And.left ha hC h
  exact ⟨l', h⟩

end HistoryInvariant

/-! ### Which transactions are read-only -/

/-- An entry of a trace that was extended is an entry of one of the parts. -/
lemma append_cons_eq_append {α : Type} {l₁ l₂ m₁ m₂ : List α} {a : α}
    (h : l₁ ++ l₂ = m₁ ++ a :: m₂) :
    (∃ n, l₁ = m₁ ++ a :: n ∧ m₂ = n ++ l₂) ∨ ∃ n, l₂ = n ++ a :: m₂ ∧ m₁ = l₁ ++ n := by
  rcases List.append_eq_append_iff.mp h with ⟨n, h1, h2⟩ | ⟨n, h1, h2⟩
  · exact Or.inr ⟨n, h2, h1⟩
  · cases n with
    | nil => exact Or.inr ⟨[], by simpa using h2.symm, by simpa using h1.symm⟩
    | cons b n =>
        rw [List.cons_append, List.cons.injEq] at h2
        obtain ⟨rfl, rfl⟩ := h2
        exact Or.inl ⟨n, h1, rfl⟩

namespace State

variable {B B' : TranId → Prop} {σ σ' : State} {o : IterOrder} {r : Request} {es : List Event}

/-- The entries for the begins of transactions: one for each transaction that is live. -/
structure Created (B : TranId → Prop) (σ : State) : Prop where
  live : ∀ {T t}, σ.transactions.lookup T = some t → .created T t.isReadOnly ∈ σ.trace
  begun : ∀ {T b}, .created T b ∈ σ.trace → B T
  once : ∀ {T b b' tr₁ tr₂}, σ.trace = tr₁ ++ .created T b :: tr₂ → .created T b' ∉ tr₁

namespace Created

lemma unique (h : Created B σ) {T : TranId} {b b' : Bool} (hb : .created T b ∈ σ.trace)
    (hb' : .created T b' ∈ σ.trace) : b = b' := by
  obtain ⟨tr₁, tr₂, htr⟩ := List.append_of_mem hb
  rw [htr, List.mem_append, List.mem_cons] at hb'
  rcases hb' with hb' | heq | hb'
  · exact absurd hb' (h.once htr)
  · cases heq
    rfl
  · obtain ⟨tr₃, tr₄, rfl⟩ := List.append_of_mem hb'
    have heq : σ.trace = (tr₁ ++ .created T b :: tr₃) ++ .created T b' :: tr₄ := by simp [htr]
    have hno : .created T b ∉ tr₁ ++ .created T b :: tr₃ := h.once heq
    exact absurd (by simp) hno

lemma extend (h : Created B σ) (hB : ∀ {T}, B T → B' T) (htr : σ'.trace = σ.trace ++ es)
    (hlive : ∀ {T t'}, σ'.transactions.lookup T = some t' →
      (∃ t, σ.transactions.lookup T = some t ∧ t'.isReadOnly = t.isReadOnly) ∨
        .created T t'.isReadOnly ∈ es)
    (hes : ∀ {T b}, .created T b ∈ es → es = [.created T b] ∧ ¬B T ∧ B' T) : Created B' σ' where
  live := by
    intro T t' ht'
    rw [htr]
    rcases hlive ht' with ⟨t, ht, hro⟩ | hmem
    · rw [hro]
      exact List.mem_append_left _ (h.live ht)
    · exact List.mem_append_right _ hmem
  begun := by
    intro T b hT
    rw [htr] at hT
    rcases List.mem_append.mp hT with hT | hT
    · exact hB (h.begun hT)
    · exact (hes hT).2.2
  once := by
    intro T b b' tr₁ tr₂ h' hmem
    rw [htr] at h'
    rcases append_cons_eq_append h' with ⟨n, h1, -⟩ | ⟨n, h1, rfl⟩
    · exact h.once h1 hmem
    · obtain ⟨h2, h3, -⟩ := hes (h1 ▸ List.mem_append_right n List.mem_cons_self)
      rw [h2] at h1
      have hn : n = [] := by
        cases n with
        | nil => rfl
        | cons e n => simp at h1
      subst hn
      rw [List.append_nil] at hmem
      exact h3 (h.begun hmem)

lemma abortTransaction (h : Created B σ) {T : TranId} (ha : σ.abortTransaction o T = .ok σ') :
    Created B σ' := by
  obtain ⟨hg, -, htr⟩ := gone_abortTransaction ha
  refine h.extend id htr (fun ht' => ?_) (by simp)
  obtain ⟨t, ht, hfix⟩ := Option.map_eq_some_iff.mp (hg.fixed ht')
  exact Or.inl ⟨t, ht, (congrArg (fun p => p.2.1) hfix).symm⟩

lemma exec (h : Created B σ) (hB : ∀ {T}, B T → B' T)
    (hfresh : r.isBegin = true → ¬B r.transactionId ∧ B' r.transactionId)
    (hout : Outcome o σ r es σ') : Created B' σ' := by
  refine h.extend hB hout.trace (fun ht' => ?_) fun hmem => ?_
  · rcases hout.transaction ht' with ⟨t, ht, hafter⟩ | ⟨ts, b, rfl, rfl⟩
    · exact Or.inl ⟨t, ht, hafter.isReadOnly⟩
    · rw [hout.create_eq]
      exact Or.inr (List.mem_singleton_self _)
  · obtain ⟨ts, rfl⟩ := hout.created_mem hmem
    exact ⟨hout.create_eq, hfresh rfl⟩

end Created

end State

/-- **The begins in the trace.** -/
theorem created_invariant (C : Request → State → Prop) :
    HistoryInvariant C fun l => State.Created (Begun l) where
  initial := ⟨fun h => by simp [State.initial] at h, fun h => by simp [State.initial] at h,
    fun h => by simp [State.initial] at h⟩
  congr h _ ht htr :=
    ⟨fun hl => htr ▸ h.live (ht ▸ hl), fun hT => h.begun (htr ▸ hT), fun h' => h.once (htr ▸ h')⟩
  abort _ h ha := h.abortTransaction ha
  exec _ he _ h _ _ hout := h.exec he.begun he.fresh hout
  mono _ h := ⟨h.live, fun hT => begun_snoc.mpr (Or.inl (h.begun hT)), h.once⟩

/-! ### Where the entries come from -/

/-- The entry `e` after `tr` was added by a request that `C` holds of. -/
def State.AddedBy (C : Request → State → Prop) (tr : List Event) (e : Event) : Prop :=
  ∃ r τ o τ' es₁ es₂, C r τ ∧ τ.exec o r = .ok τ' ∧
    State.Outcome o τ r (es₁ ++ e :: es₂) τ' ∧ tr = τ.trace ++ es₁

/-- Every entry that is no abort was added by a request. -/
def State.Traced (C : Request → State → Prop) (σ : State) : Prop :=
  ∀ tr₁ e tr₂, σ.trace = tr₁ ++ e :: tr₂ → (∃ T, e = .aborted T) ∨ State.AddedBy C tr₁ e

/-- **The origin of the entries of the trace.** -/
theorem traced_invariant (C : Request → State → Prop) :
    HistoryInvariant C fun _ => State.Traced C where
  initial := by
    intro tr₁ e tr₂ h
    simp [State.initial] at h
  congr h _ _ htr tr₁ e tr₂ h' := h tr₁ e tr₂ (htr ▸ h')
  abort := by
    intro l o T σ σ' _ h ha tr₁ e tr₂ h'
    rw [(State.gone_abortTransaction ha).2.2] at h'
    rcases append_cons_eq_append h' with ⟨n, h1, -⟩ | ⟨n, h1, -⟩
    · exact h tr₁ e n h1
    · have he : e ∈ [Event.aborted T] := h1 ▸ List.mem_append_right n List.mem_cons_self
      exact Or.inl ⟨T, List.mem_singleton.mp he⟩
  exec := by
    intro l l' r o es σ σ' _ _ _ h hC hx hout tr₁ e tr₂ h'
    rw [hout.trace] at h'
    rcases append_cons_eq_append h' with ⟨n, h1, -⟩ | ⟨n, rfl, h2⟩
    · exact h tr₁ e n h1
    · exact Or.inr ⟨r, σ, o, σ', n, tr₂, hC, hx, hout, h2⟩
  mono _ h := h

section Runs

variable {l : List Feed} {σ τ : State} {r : Request}

theorem created_called (h : CalledDuring l r τ) (ha : Admissible l) :
    ∃ B, State.Created B τ := by
  obtain ⟨l', -, h⟩ := (created_invariant fun _ _ => True).called ha (by simp) h
  exact ⟨_, h⟩

/-- Every entry of the trace that is no abort was added by a request that the run executed. -/
theorem traced_reaches (ha : Admissible l) (hr : Reaches l σ) :
    State.Traced (CalledDuring l) σ :=
  (traced_invariant (CalledDuring l)).reaches ha (fun _ _ => id) hr

end Runs

end RepCRec
