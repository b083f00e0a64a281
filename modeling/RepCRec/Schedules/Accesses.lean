import RepCRec.Engine.Progress
import RepCRec.Guarantees.WriteEffects
import RepCRec.Replication.Cover
import RepCRec.Replication.Serial

/-!
What the transactions do, as the trace of a run has it. The operations of a transaction are its
reads and the writes that are granted to it (`operations`), the accesses are its reads and the
writes that are recorded (`accesses`): a granted write can be lost (`Event.lostBy?`). A transaction
accesses nothing before its begin and after its commit (`accessing_invariant`), and while it is live
its last recorded writes are the values that are pending for it (`recorded_invariant`).
-/

namespace RepCRec

open AvailableCopies (Action Steps Step)
open Container (IterOrder)
open Serial (Op lastWrite)

/-- The operation that the engine grants in the entry: a read with the value that it returns, or a
write, whether its value is recorded or not. -/
def Event.op? : Event → Option (TranId × Op VarId Value)
  | .reads T _ v x => some (T, .read v x)
  | .writeLock T v _ x => some (T, .write v x)
  | .rewrites T v x => some (T, .write v x)
  | _ => none

/-- The operations that are granted to `T`, in the order of the grants. -/
def operations (trace : List Event) (T : TranId) : List (Op VarId Value) :=
  trace.filterMap fun e => e.op?.bind fun p => if p.1 = T then some p.2 else none

/-- The operation that is granted in the entry and recorded. A write that reaches no copy is not,
and neither is the second write of a replicated variable, whose value is dropped. -/
def Event.access? : Event → Option (TranId × Op VarId Value)
  | .reads T _ v x => some (T, .read v x)
  | .writeLock T v L x => if L = [] then none else some (T, .write v x)
  | .rewrites T v x => if v.isOdd then some (T, .write v x) else none
  | _ => none

/-- The access of `T` that the entry stands for. -/
def Event.accessOf? (T : TranId) (e : Event) : Option (Op VarId Value) :=
  match e.access? with
  | some (T', o) => if T' = T then some o else none
  | none => none

/-- The recorded accesses of `T` in the trace. -/
def accesses (trace : List Event) (T : TranId) : List (Op VarId Value) :=
  trace.filterMap (Event.accessOf? T)

/-- The transaction whose write is granted in the entry and lost: no site is up for it, or the
transaction has written the replicated variable before, and keeps the value of that write. -/
def Event.lostBy? : Event → Option TranId
  | .writeLock T _ L _ => if L = [] then some T else none
  | .rewrites T v _ => if v.isOdd then none else some T
  | _ => none

/-- The transaction that accesses a variable or commits in the entry. -/
def Event.actor? : Event → Option TranId
  | .committed T => some T
  | e => e.access?.map Prod.fst

section Accesses

variable {tr es : List Event} {e : Event} {T : TranId} {op : Op VarId Value} {v : VarId} {x : Value}

lemma Event.accessOf?_eq_some : e.accessOf? T = some op ↔ e.access? = some (T, op) := by
  rw [accessOf?]
  cases h : e.access? with
  | none => simp
  | some p =>
      obtain ⟨T', op'⟩ := p
      simp

@[simp] lemma accesses_append : accesses (tr ++ es) T = accesses tr T ++ accesses es T := by
  simp [accesses]

lemma mem_accesses : op ∈ accesses tr T ↔ ∃ e ∈ tr, e.access? = some (T, op) := by
  simp only [accesses, List.mem_filterMap, Event.accessOf?_eq_some]

lemma accesses_of_none (h : ∀ e ∈ es, ∀ op, e.access? ≠ some (T, op)) : accesses es T = [] := by
  refine List.eq_nil_iff_forall_not_mem.mpr fun op hop => ?_
  obtain ⟨e, he, hacc⟩ := mem_accesses.mp hop
  exact h e he op hacc

/-- A write that is not lost is recorded. -/
lemma operations_eq_accesses (h : ∀ e ∈ tr, e.lostBy? ≠ some T) :
    operations tr T = accesses tr T := by
  refine List.filterMap_congr fun e he => ?_
  have hl := h e he
  cases e with
  | writeLock T' v L x =>
      by_cases hL : L = []
      · have hT : T' ≠ T := by simpa [Event.lostBy?, hL] using hl
        simp [Event.op?, Event.accessOf?, Event.access?, hL, hT]
      · simp [Event.op?, Event.accessOf?, Event.access?, hL]
  | rewrites T' v x =>
      by_cases hv : v.isOdd = true
      · simp [Event.op?, Event.accessOf?, Event.access?, hv]
      · have hT : T' ≠ T := by simpa [Event.lostBy?, hv] using hl
        simp [Event.op?, Event.accessOf?, Event.access?, hv, hT]
  | reads => rfl
  | _ => rfl

lemma Event.actor?_of_access? (h : e.access? = some (T, op)) : e.actor? = some T := by
  cases e with
  | committed => cases h
  | _ => simp_all [actor?]

/-- The entries that act for a transaction. -/
lemma Event.actor?_eq_some : e.actor? = some T ↔
    e = .committed T ∨ ∃ op, e.access? = some (T, op) := by
  constructor
  · intro h
    cases hacc : e.access? with
    | none =>
        cases e with
        | committed T' =>
            cases h
            exact Or.inl rfl
        | _ => simp [actor?, hacc] at h
    | some p =>
        obtain ⟨T', op⟩ := p
        rw [Event.actor?_of_access? hacc] at h
        cases h
        exact Or.inr ⟨op, rfl⟩
  · rintro (rfl | ⟨op, h⟩)
    · rfl
    · exact Event.actor?_of_access? h

lemma Event.written_of_access? (h : e.access? = some (T, .write v x)) : e.Written T v x := by
  cases e with
  | writeLock =>
      rw [access?] at h
      split_ifs at h
      cases h
      exact .writeLock
  | rewrites =>
      rw [access?] at h
      split_ifs at h
      cases h
      exact .rewrites
  | _ => cases h

/-- A step of the protocol that writes is that of a recorded write. -/
lemma Event.Acts.access? {a : Action SiteId VarId TranId Value} (h : e.Acts a)
    (hw : a.Writes T v x) : e.access? = some (T, .write v x) := by
  rcases hw with ⟨L, rfl⟩ | ⟨L, rfl⟩
  · cases h with
    | writeLock hL => exact if_neg hL
  · cases h with
    | rewrites hv => exact if_pos hv

end Accesses

namespace State

variable {o : IterOrder} {σ σ' : State} {r : Request} {es : List Event} {T : TranId} {v : VarId}
  {x y : Value} {op : Op VarId Value}

/-! ### Begins and commits -/

/-- Only live transactions access a variable or commit. -/
lemma Outcome.actor_live (h : Outcome o σ r es σ') {e : Event} (he : e ∈ es)
    (ha : e.actor? = some T) : T ∈ σ.transactions := by
  rcases Event.actor?_eq_some.mp ha with rfl | ⟨op, hacc⟩
  · cases h with
    | commits ht =>
        obtain rfl : T = _ := by simpa [storeEvent] using he
        exact Dict.mem_of_lookup ht
    | sharesEven =>
        revert he
        generalize o.visit _ = l
        cases l <;> simp [firstRead]
    | _ => simp at he
  · cases e with
    | reads T' s v x =>
        cases hacc
        obtain ⟨-, t, -, ht, -⟩ := h.reads_mem he
        exact Dict.mem_of_lookup ht
    | writeLock T' v L x =>
        rw [Event.access?] at hacc
        split_ifs at hacc with hL
        cases hacc
        obtain ⟨ts, rfl⟩ := h.writeLock_mem he
        cases h with
        | writeLocks _ h1 =>
            cases List.mem_singleton.mp he
            by_contra hT
            rw [updateValuesAt_of_dead hT hL] at h1
            cases h1
        | _ => simp at he
    | rewrites T' v x =>
        rw [Event.access?] at hacc
        split_ifs at hacc with hv
        cases hacc
        cases h with
        | rewritesOdd _ _ h1 =>
            cases List.mem_singleton.mp he
            obtain ⟨t, ht, -⟩ := modifyTransaction_eq_ok.mp h1
            exact Dict.mem_of_lookup ht
        | rewritesEven hv' =>
            cases List.mem_singleton.mp he
            rw [hv'] at hv
            cases hv
        | sharesEven =>
            revert he
            generalize o.visit _ = l
            cases l <;> simp [firstRead]
        | _ => simp [storeEvent] at he
    | _ => cases hacc

/-- A commit is the last entry of its request. -/
lemma Outcome.committed_last {es₁ es₂ : List Event}
    (h : Outcome o σ r (es₁ ++ .committed T :: es₂) σ') : es₂ = [] := by
  generalize heq : es₁ ++ .committed T :: es₂ = es at h
  have hmem : .committed T ∈ es := heq ▸ by simp
  obtain ⟨ts, rfl⟩ := h.committed_mem hmem
  cases h with
  | unavailable ha => cases ha
  | waitsForLock ha => cases ha
  | commits =>
      rcases append_cons_eq_append heq.symm with ⟨n, h1, -⟩ | ⟨n, h1, -⟩
      · have hst : Event.committed T ∈ es₁ ++ .committed T :: n := by simp
        rw [← h1] at hst
        simp [storeEvent] at hst
      · obtain ⟨-, h2⟩ | ⟨-, h2⟩ := List.singleton_eq_append_iff.mp h1
        · exact (List.cons.inj h2).2
        · cases h2
  | commitFails => simp at hmem

/-- A transaction accesses variables and commits after its begin, and not after its commit. -/
structure Accessing (σ : State) : Prop where
  dead : ∀ {T}, .committed T ∈ σ.trace → T ∉ σ.transactions
  begun : ∀ {tr₁ e tr₂ T}, σ.trace = tr₁ ++ e :: tr₂ → e.actor? = some T →
    ∃ b, .created T b ∈ tr₁
  last : ∀ {tr₁ T tr₂}, σ.trace = tr₁ ++ .committed T :: tr₂ → ∀ e ∈ tr₂, e.actor? ≠ some T

namespace Accessing

lemma congr (h : Accessing σ) (ht : σ'.transactions = σ.transactions) (htr : σ'.trace = σ.trace) :
    Accessing σ' :=
  ⟨fun hc => ht ▸ h.dead (htr ▸ hc), fun h' => h.begun (htr ▸ h'), fun h' => h.last (htr ▸ h')⟩

/-- The trace is extended by entries of live transactions. -/
lemma extend (h : Accessing σ) {B : TranId → Prop} (hB : Created B σ)
    (htr : σ'.trace = σ.trace ++ es)
    (hlive : ∀ e ∈ es, ∀ T, e.actor? = some T → T ∈ σ.transactions)
    (hlast : ∀ es₁ T es₂, es = es₁ ++ .committed T :: es₂ → es₂ = [])
    (hdead : ∀ T, T ∈ σ'.transactions → .committed T ∉ es ∧
      (T ∈ σ.transactions ∨ .committed T ∉ σ.trace)) : Accessing σ' where
  dead {T} hc hT := by
    obtain ⟨h1, h2⟩ := hdead T hT
    rw [htr] at hc
    have hold := (List.mem_append.mp hc).resolve_right h1
    exact h2.elim (h.dead hold) fun h2 => h2 hold
  begun {tr₁ e tr₂ T} htr' ha := by
    rw [htr] at htr'
    rcases append_cons_eq_append htr' with ⟨n, h1, -⟩ | ⟨n, rfl, rfl⟩
    · exact h.begun h1 ha
    · obtain ⟨t, ht⟩ := Dict.exists_lookup (hlive e (by simp) T ha)
      exact ⟨_, List.mem_append_left _ (hB.live ht)⟩
  last {tr₁ T tr₂} htr' e he ha := by
    rw [htr] at htr'
    rcases append_cons_eq_append htr' with ⟨n, h1, rfl⟩ | ⟨n, rfl, -⟩
    · rcases List.mem_append.mp he with he | he
      · exact h.last h1 e he ha
      · exact h.dead (by rw [h1]; simp) (hlive e he T ha)
    · rw [hlast n T tr₂ rfl] at he
      cases he

/-- What accesses a variable or commits was begun. -/
lemma begun_of_mem (h : Accessing σ) {B : TranId → Prop} (hB : Created B σ) {e : Event}
    (he : e ∈ σ.trace) (ha : e.actor? = some T) : B T := by
  obtain ⟨tr₁, tr₂, htr⟩ := List.append_of_mem he
  obtain ⟨b, hb⟩ := h.begun htr ha
  exact hB.begun (htr ▸ List.mem_append_left _ hb)

lemma abortTransaction (h : Accessing σ) {B : TranId → Prop} (hB : Created B σ)
    (ha : σ.abortTransaction o T = .ok σ') : Accessing σ' := by
  obtain ⟨hg, -, htr⟩ := gone_abortTransaction ha
  refine h.extend hB htr (by simp [Event.actor?, Event.access?]) (fun es₁ T' es₂ heq => ?_)
    fun T' hT' => ⟨by simp, Or.inl (hg.mem_transactions.mp hT').1⟩
  obtain ⟨-, h2⟩ | ⟨-, h2⟩ := List.singleton_eq_append_iff.mp heq <;> cases h2

lemma exec (h : Accessing σ) {B : TranId → Prop} (hB : Created B σ)
    (hfresh : r.isBegin = true → ¬B r.transactionId) (hout : Outcome o σ r es σ') :
    Accessing σ' := by
  refine h.extend hB hout.trace (fun e he T => hout.actor_live he)
    (fun es₁ T es₂ heq => (heq ▸ hout).committed_last) fun T hT => ?_
  obtain ⟨hT, hc, -⟩ := hout.mem_transactions.mp hT
  refine ⟨hc, hT.imp id ?_⟩
  rintro ⟨b, hb⟩ hold
  obtain ⟨ts, rfl⟩ := hout.created_mem hb
  exact hfresh rfl (h.begun_of_mem hB hold rfl)

end Accessing

/-! ### The recorded writes -/

/-- The last writes of the live transactions are the values that are pending for them. -/
def WritesPending (σ : State) : Prop :=
  ∀ T ∈ σ.transactions, ∀ v x,
    lastWrite (accesses σ.trace T) v = some x ↔ ∃ s, σ.pending T s v = some x

lemma accesses_eq_nil_of_fresh (h : Accessing σ) {B : TranId → Prop} (hB : Created B σ)
    (hT : ¬B T) : accesses σ.trace T = [] :=
  accesses_of_none fun _ he _ hacc => hT (h.begun_of_mem hB he (Event.actor?_of_access? hacc))

/-- A recorded write is the only entry of its request, and takes effect. -/
lemma Outcome.takesEffect (hg : σ.Good) (h : Outcome o σ r es σ') (hsim : Simulates σ es σ')
    {e : Event} (he : e ∈ es) (hacc : e.access? = some (T, .write v y)) :
    es = [e] ∧ σ'.TakesEffect T v y := by
  obtain ⟨rfl, ts, rfl⟩ := h.written_mem he (Event.written_of_access? hacc)
  refine ⟨rfl, ?_⟩
  cases h with
  | writeLocks hgr =>
      rw [Event.access?] at hacc
      split_ifs at hacc with hL
      refine (hg.takesEffect_of_granted hgr hsim).mpr ?_
      obtain ⟨s, hs⟩ := List.exists_mem_of_ne_nil _ hL
      exact ⟨s, (mem_siteIdSet hgr).mp hs⟩
  | rewritesOdd hv hown =>
      have hown' : σ.view.excl T v.home v := beq_iff_eq.mp hown
      refine (hg.takesEffect_of_rewritten hv hown' hsim).mpr ⟨⟨v.home, ?_, ?_⟩, fun heven => ?_⟩
      · exact mem_copySites.mpr (home_mem_copies v)
      · exact hg.inv.excl_up hown'
      · rw [hv] at heven
        cases heven
  | rewritesEven hv =>
      rw [Event.access?, if_neg (by simp [hv])] at hacc
      cases hacc
  | _ => cases hacc

lemma TakesEffect.pending_iff (h : σ.TakesEffect T v y) (hg : σ.Good) :
    (∃ s, σ.pending T s v = some x) ↔ y = x := by
  obtain ⟨s, hs⟩ := h.1
  constructor
  · rintro ⟨s', hs'⟩
    have h1 : σ.view.pending T s v = some y := hs
    have h2 : σ.view.pending T s' v = some x := hs'
    exact hg.inv.pending_same h1 h2
  · rintro rfl
    exact ⟨s, hs⟩

namespace WritesPending

/-- Entries that write nothing for `T` in `v`. -/
lemma simulates (h : σ.WritesPending) (hsim : Simulates σ es σ') (hT : T ∈ σ'.transactions)
    (hcr : ∀ b, .created T b ∉ es)
    (hw : ∀ e ∈ es, ∀ y, e.access? ≠ some (T, .write v y)) :
    lastWrite (accesses σ'.trace T) v = some x ↔ ∃ s, σ'.pending T s v = some x := by
  have hcr' : .create T ∉ actions es := by
    intro hmem
    obtain ⟨e, he, ha⟩ := mem_actions hmem
    cases ha
    exact hcr _ he
  have hwr : ∀ a ∈ actions es, ∀ y, ¬a.Writes T v y := by
    intro a ha y hy
    obtain ⟨e, he, hact⟩ := mem_actions ha
    exact hw e he y (hact.access? hy)
  have hlast : lastWrite (accesses es T) v = none := Serial.lastWrite_of_unwritten fun y hy => by
    obtain ⟨e, he, hacc⟩ := mem_accesses.mp hy
    exact hw e he y hacc
  have hlive : T ∈ σ.transactions := (hsim.steps.pending_of_live hcr' hT).1
  rw [hsim.trace, accesses_append, Serial.lastWrite_append, hlast, Option.none_or, h T hlive]
  exact exists_congr fun s => (hsim.steps.pending_iff hT hcr' hwr).symm

lemma exec (h : σ.WritesPending) (hg : σ.Good) (hA : Accessing σ) {B : TranId → Prop}
    (hB : Created B σ) (hfresh : r.isBegin = true → ¬B r.transactionId)
    (hout : Outcome o σ r es σ') (hsim : Simulates σ es σ') : σ'.WritesPending := by
  intro T hT v x
  by_cases hw : ∃ e ∈ es, ∃ y, e.access? = some (T, .write v y)
  · obtain ⟨e, he, y, hacc⟩ := hw
    obtain ⟨rfl, heff⟩ := hout.takesEffect hg hsim he hacc
    have hacc' : accesses [e] T = [.write v y] := by
      rw [accesses, List.filterMap_cons_some (Event.accessOf?_eq_some.mpr hacc),
        List.filterMap_nil]
    rw [heff.pending_iff (hsim.good hg), hsim.trace, accesses_append, hacc',
      Serial.lastWrite_append, Serial.lastWrite_singleton]
    simp [Op.written?]
  · push Not at hw
    by_cases hcr : ∃ b, .created T b ∈ es
    · -- a transaction that has just been begun has no accesses and no pending writes
      obtain ⟨b, hb⟩ := hcr
      obtain ⟨ts, rfl⟩ := hout.created_mem hb
      have hT' : ¬B T := hfresh rfl
      have hnil : accesses σ'.trace T = [] := by
        rw [hout.trace, hout.create_eq, accesses_append, accesses_eq_nil_of_fresh hA hB hT']
        rfl
      rw [hnil]
      refine iff_of_false (by simp [lastWrite]) ?_
      rintro ⟨s, hp⟩
      rcases hsim.steps.pending_cases (T := T) (s := s) (v := v) hp with hold | ⟨a, ha, hy⟩
      · have hlive := hg.inv.excl_live (hg.inv.excl_of_pending hold)
        obtain ⟨t, ht⟩ := live_iff.mp hlive
        exact hT' (hB.begun (hB.live ht))
      · obtain ⟨e, he, hact⟩ := mem_actions ha
        exact hw e he x (hact.access? hy)
    · push Not at hcr
      exact h.simulates hsim hT hcr hw

end WritesPending

end State

/-- **The accesses of the transactions** of a run. -/
theorem accessing_invariant (C : Request → State → Prop) : HistoryInvariant C fun l σ =>
    State.Created (Begun l) σ ∧ State.Accessing σ ∧ State.WritesPending σ where
  initial := ⟨(created_invariant C).initial, ⟨fun h => by simp [State.initial] at h,
    fun h => by simp [State.initial] at h, fun h => by simp [State.initial] at h⟩,
    fun T hT => by simp [State.initial] at hT⟩
  congr h hs ht htr := by
    refine ⟨(created_invariant C).congr h.1 hs ht htr, h.2.1.congr ht htr, fun T hT v x => ?_⟩
    rw [htr, h.2.2 T (ht ▸ hT)]
    simp only [State.pending, ht]
  abort hg h ha := by
    refine ⟨h.1.abortTransaction ha, h.2.1.abortTransaction h.1 ha, fun T hT v x => ?_⟩
    exact h.2.2.simulates (State.simulates_abortTransaction hg ha) hT (by simp)
      (by simp [Event.access?])
  exec ha he hR h _ _ hout := by
    have hsim := hout.simulates_of_fresh hR.good fun hb hT => (he.fresh hb).1 (hR.known.live hT)
    exact ⟨h.1.exec he.begun he.fresh hout, h.2.1.exec h.1 (fun hb => (he.fresh hb).1) hout,
      h.2.2.exec hR.good h.2.1 h.1 (fun hb => (he.fresh hb).1) hout hsim⟩
  mono hx h := ⟨(created_invariant C).mono hx h.1, h.2⟩

end RepCRec
