import RepCRec.Engine.OpenRun
import RepCRec.Guarantees.Snapshots
import RepCRec.Schedules.Requests

/-!
The runs of the engine are one-copy serializable, as long as the copies that are read under locks
are protected until the commit of the reader, the read-only transactions read their snapshots, and
no write that the engine grants to a committed transaction is lost (`one_copy_serializable`): the
transactions can be executed one after the other on one database, and all readable copies hold its
values then. In this order, the read-only transactions stand where they begin, and all others where
they commit.
-/

namespace RepCRec

open AvailableCopies (Covers)
open Container (IterOrder)
open Serial (Op Entry lastWrite runOps store Legal CommitsLast ReadsLast)

/-- The transactions that the trace begins as read-only. -/
def readOnlyIn (trace : List Event) (T : TranId) : Bool := decide (.created T true ∈ trace)

/-- The transaction that has its place in the serial order where the entry is in the trace. -/
def Event.place? (ro : TranId → Bool) : Event → Option TranId
  | .created T _ => if ro T then some T else none
  | .committed T => if ro T then none else some T
  | _ => none

/-- The serial order: the read-only transactions by their begins, all others by their commits. -/
def serialOrder (trace : List Event) : List TranId :=
  trace.filterMap (Event.place? (readOnlyIn trace))

/-- The operations of the transactions, executed one after the other in the serial order. -/
def serialExecution (trace : List Event) : List (Op VarId Value) :=
  (serialOrder trace).flatMap (operations trace)

/-- No write that is granted to a transaction of the serial order is lost. -/
def WritesKept (trace : List Event) : Prop :=
  ∀ e ∈ trace, ∀ T ∈ e.lostBy?, T ∉ serialOrder trace

instance (trace : List Event) : Decidable (WritesKept trace) :=
  inferInstanceAs (Decidable (∀ e ∈ trace, ∀ T ∈ e.lostBy?, T ∉ serialOrder trace))

/-- The replicated variables that are read under locks are protected until the reader commits: the
copy that is read is readable, and as long as some site is up, one of the locked ones is. -/
structure ReadsProtected (trace : List Event) : Prop where
  readable : ∀ {tr₁ T s v x tr₂}, trace = tr₁ ++ .reads T s v x :: tr₂ →
    .created T false ∈ tr₁ → .committed T ∈ tr₂ → v.isOdd = false → copyReadable tr₁ s v = true
  covered : ∀ {tr₁ T v L tr₂ tr₃}, trace = tr₁ ++ .sharedLock T v L :: tr₂ ++ tr₃ →
    .committed T ∈ tr₃ → v.isOdd = false →
    (∃ s, siteUp (tr₁ ++ .sharedLock T v L :: tr₂) s = true) →
      ∃ s ∈ L, siteUp (tr₁ ++ .sharedLock T v L :: tr₂) s = true

/-- The ways to split a list in two. -/
def splits {α : Type} : List α → List (List α × List α)
  | [] => [([], [])]
  | a :: l => ([], a :: l) :: (splits l).map fun p => (a :: p.1, p.2)

lemma mem_splits {α : Type} {l l₁ l₂ : List α} : (l₁, l₂) ∈ splits l ↔ l = l₁ ++ l₂ := by
  induction l generalizing l₁ with
  | nil => simp [splits, eq_comm]
  | cons a l ih =>
      rw [splits, List.mem_cons, List.mem_map]
      constructor
      · rintro (h | ⟨⟨m₁, m₂⟩, hm, h⟩)
        · cases h
          rfl
        · cases h
          rw [ih.mp hm, List.cons_append]
      · intro h
        cases l₁ with
        | nil => exact Or.inl (by rw [h, List.nil_append])
        | cons b l₁ =>
            rw [List.cons_append, List.cons.injEq] at h
            obtain ⟨rfl, h⟩ := h
            exact Or.inr ⟨(l₁, l₂), ih.mpr h, rfl⟩

/-- The next entry is no read of an unreadable copy of a replicated variable under a lock. -/
def readableNext (tr₁ : List Event) : List Event → Bool
  | .reads T s v _ :: tr₂ => decide (.created T false ∈ tr₁ → .committed T ∈ tr₂ →
      v.isOdd = false → copyReadable tr₁ s v = true)
  | _ => true

/-- The next entry is no lock that does not cover its variable after the entries that follow. -/
def coveredNext (tr₁ : List Event) : List Event → List Event → Bool
  | .sharedLock T v L :: tr₂, tr₃ => decide (.committed T ∈ tr₃ → v.isOdd = false →
      (∃ s ∈ SiteId.all, siteUp (tr₁ ++ .sharedLock T v L :: tr₂) s = true) →
        ∃ s ∈ L, siteUp (tr₁ ++ .sharedLock T v L :: tr₂) s = true)
  | _, _ => true

section Protected

variable {trace tr₁ tr₂ tr₃ : List Event}

lemma ReadsProtected.readableNext (h : ReadsProtected trace) (htr : trace = tr₁ ++ tr₂) :
    readableNext tr₁ tr₂ = true := by
  cases tr₂ with
  | nil => rfl
  | cons e tr₂ =>
      cases e with
      | reads => exact decide_eq_true (h.readable htr)
      | _ => rfl

lemma ReadsProtected.coveredNext (h : ReadsProtected trace) (htr : trace = tr₁ ++ tr₂ ++ tr₃) :
    coveredNext tr₁ tr₂ tr₃ = true := by
  cases tr₂ with
  | nil => rfl
  | cons e tr₂ =>
      cases e with
      | sharedLock =>
          exact decide_eq_true fun hc hv ⟨s, _, hs⟩ => h.covered htr hc hv ⟨s, hs⟩
      | _ => rfl

lemma readsProtected_iff : ReadsProtected trace ↔ ∀ p ∈ splits trace,
    readableNext p.1 p.2 = true ∧ ∀ q ∈ splits p.2, coveredNext p.1 q.1 q.2 = true := by
  constructor
  · intro h p hp
    have htr := mem_splits.mp hp
    refine ⟨h.readableNext htr, fun q hq => h.coveredNext ?_⟩
    rw [htr, List.append_assoc, mem_splits.mp hq]
  · intro h
    refine ⟨fun htr => of_decide_eq_true (h _ (mem_splits.mpr htr)).1,
      fun {tr₁ T v L tr₂ tr₃} htr hc hv hup => ?_⟩
    obtain ⟨s, hs⟩ := hup
    rw [List.append_assoc] at htr
    have hcov := (h _ (mem_splits.mpr htr)).2 (_, tr₃) (mem_splits.mpr rfl)
    exact of_decide_eq_true hcov hc hv ⟨s, SiteId.mem_all s, hs⟩

instance (trace : List Event) : Decidable (ReadsProtected trace) :=
  decidable_of_iff _ readsProtected_iff.symm

end Protected

/-- The read-only transactions write nothing. -/
def ReadOnlySilent (trace : List Event) : Prop :=
  ∀ T, .created T true ∈ trace → ∀ v x, .write v x ∉ accesses trace T

/-- The accesses of the read-only transactions. -/
def snapshotReads (trace : List Event) (T : TranId) : List (Op VarId Value) :=
  if readOnlyIn trace T then accesses trace T else []

/-- The history of the trace, with the read-only transactions at their begins. -/
def serialHistory (trace : List Event) : List (Entry TranId VarId Value) :=
  history (readOnlyIn trace) (snapshotReads trace) trace

section Order

variable {ro : TranId → Bool} {snap : TranId → List (Op VarId Value)} {tr tr₁ tr₂ : List Event}
  {e : Event} {T : TranId} {op : Op VarId Value} {v : VarId} {x : Value} {b : Bool}

lemma Event.eq_reads_of_access? (h : e.access? = some (T, .read v x)) :
    ∃ s, e = .reads T s v x := by
  cases e with
  | reads T' s v' x' =>
      cases h
      exact ⟨s, rfl⟩
  | writeLock =>
      rw [access?] at h
      split_ifs at h
      cases h
  | rewrites =>
      rw [access?] at h
      split_ifs at h
      cases h
  | _ => cases h

lemma Event.order_entries (e : Event) :
    Serial.order (e.entries ro snap) = (e.place? ro).toList := by
  cases hacc : e.access? with
  | some p =>
      obtain ⟨T, op⟩ := p
      rw [Event.entries_of_access? hacc]
      cases e with
      | created | committed => cases hacc
      | _ => split_ifs <;> rfl
  | none =>
      cases e with
      | created T b =>
          simp only [entries, access?, place?]
          split_ifs
          · rw [Serial.order_append, Serial.order, List.filterMap_eq_nil_iff.mpr]
            · rfl
            · simp [Entry.commit?]
          · rfl
      | committed T =>
          simp only [entries, access?, place?]
          split_ifs <;> rfl
      | _ => simp only [entries, hacc]; rfl

/-- The commits of the history are in the serial order. -/
lemma order_history : Serial.order (history ro snap tr) = tr.filterMap (Event.place? ro) := by
  induction tr with
  | nil => rfl
  | cons e tr ih =>
      rw [show e :: tr = [e] ++ tr from rfl, history_append, Serial.order_append, ih,
        List.filterMap_append, history, List.flatMap_singleton, e.order_entries]
      cases h : e.place? ro with
      | none => rw [List.filterMap_cons_none h]; rfl
      | some T => rw [List.filterMap_cons_some h]; rfl

/-- The accesses of a transaction that is moved to its begin. -/
lemma ops_history_snapshot (hro : ro T = true) (h₁ : ∀ b, .created T b ∉ tr₁)
    (h₂ : ∀ b, .created T b ∉ tr₂) :
    Serial.ops (history ro snap (tr₁ ++ .created T b :: tr₂)) T = snap T := by
  have hno : ∀ {tr}, (∀ b, .created T b ∉ tr) → Serial.ops (history ro snap tr) T = [] := by
    intro tr h
    refine List.eq_nil_iff_forall_not_mem.mpr fun op hop => ?_
    rcases access_mem_history.mp (Serial.mem_ops.mp hop) with ⟨-, -, b, hb⟩ | ⟨hro', -⟩
    · exact h b hb
    · rw [hro] at hro'
      cases hro'
  have hone : Serial.ops (Event.entries ro snap (.created T b)) T = snap T := by
    simp only [Event.entries, Event.access?, if_pos hro, Serial.ops, List.filterMap_append,
      List.filterMap_map]
    rw [show List.filterMap (Entry.op? T) [Entry.commit T] = [] from rfl, List.append_nil]
    exact (List.filterMap_congr fun op _ => by simp [Entry.op?]).trans List.filterMap_some
  rw [show tr₁ ++ .created T b :: tr₂ = tr₁ ++ ([.created T b] ++ tr₂) from rfl, history_append,
    history_append, Serial.ops_append, Serial.ops_append, hno h₁, hno h₂, List.nil_append,
    List.append_nil, history, List.flatMap_singleton, hone]

/-- Where a transaction does not act any more, it has no entry in the history. -/
lemma notMem_history (hcr : ro T = true → ∀ b, .created T b ∉ tr)
    (hact : ro T = false → ∀ e ∈ tr, e.actor? ≠ some T) :
    .commit T ∉ history ro snap tr ∧ ∀ op, .access T op ∉ history ro snap tr := by
  refine ⟨fun hc => ?_, fun op hop => ?_⟩
  · rcases commit_mem_history.mp hc with ⟨hro, b, hb⟩ | ⟨hro, hc⟩
    · exact hcr hro b hb
    · exact hact hro _ hc rfl
  · rcases access_mem_history.mp hop with ⟨hro, -, b, hb⟩ | ⟨hro, hop⟩
    · exact hcr hro b hb
    · obtain ⟨e, he, hacc⟩ := mem_accesses.mp hop
      exact hact hro e he (Event.actor?_of_access? hacc)

/-- The serial execution consists of the accesses, where no write is lost. -/
lemma WritesKept.serialExecution_eq (h : WritesKept tr) :
    serialExecution tr = (serialOrder tr).flatMap (accesses tr) :=
  List.flatMap_congr fun T hT => operations_eq_accesses fun e he hl => h e he T hl hT

lemma mem_serialOrder (hc : .committed T ∈ tr) : T ∈ serialOrder tr := by
  rw [serialOrder, List.mem_filterMap]
  cases hro : readOnlyIn tr T with
  | true => exact ⟨_, of_decide_eq_true hro, by simp [Event.place?, hro]⟩
  | false => exact ⟨_, hc, by simp [Event.place?, hro]⟩

end Order

section Runs

variable {l : List Feed} {σ : State} {tr₁ tr₂ tr₃ a₁ : List Event} {T T' : TranId} {s : SiteId}
  {v : VarId} {x y : Value}

/-- What is known of the trace of a run. -/
structure TraceKnown (σ : State) (B : TranId → Prop) : Prop where
  created : State.Created B σ
  accessing : State.Accessing σ

lemma traceKnown (ha : Admissible l) (hr : Reaches l σ) : TraceKnown σ (Begun l) := by
  have h := (accessing_invariant fun _ _ => True).reaches ha (by simp) hr
  exact ⟨h.1, h.2.1⟩

namespace TraceKnown

variable {B : TranId → Prop}

/-- A transaction is not begun again. -/
lemma not_created (h : TraceKnown σ B) {b b' : Bool} (htr : σ.trace = tr₁ ++ tr₂)
    (hb : .created T b ∈ tr₁) : .created T b' ∉ tr₂ := by
  intro hb'
  obtain ⟨m, n, rfl⟩ := List.append_of_mem hb'
  have heq : σ.trace = (tr₁ ++ m) ++ .created T b' :: n := by rw [htr, List.append_assoc]
  exact h.created.once heq (List.mem_append_left m hb)

lemma not_created_after (h : TraceKnown σ B) {b b' : Bool}
    (htr : σ.trace = tr₁ ++ .created T b :: tr₂) : .created T b' ∉ tr₂ := by
  rw [List.append_cons] at htr
  exact h.not_created htr (List.mem_append_right tr₁ (List.mem_singleton_self _))

/-- An access comes after the begin of its transaction. -/
lemma of_access (h : TraceKnown σ B) {b : Bool} {e : Event}
    (htr : σ.trace = tr₁ ++ .created T b :: tr₂)
    (he : e ∈ σ.trace) (hact : e.actor? = some T) : e ∈ tr₂ := by
  obtain ⟨m, n, heq⟩ := List.append_of_mem he
  obtain ⟨b', hb'⟩ := h.accessing.begun heq hact
  rcases append_cons_eq_append (htr.symm.trans heq) with ⟨k, rfl, -⟩ | ⟨k, hk, rfl⟩
  · exact absurd (List.mem_append_left _ hb') (h.created.once htr)
  · cases k with
    | nil =>
        rw [List.append_nil] at hb'
        exact absurd hb' (h.created.once htr)
    | cons e' k =>
        obtain ⟨-, rfl⟩ := List.cons.inj hk
        simp

/-- A transaction that is not read-only reads after its begin. -/
lemma created_false (h : TraceKnown σ B) (htr : σ.trace = tr₁ ++ .reads T s v x :: tr₂)
    (hro : readOnlyIn σ.trace T = false) : .created T false ∈ tr₁ := by
  obtain ⟨b, hb⟩ := h.accessing.begun htr rfl
  cases b with
  | false => exact hb
  | true => exact absurd (htr ▸ List.mem_append_left _ hb) (of_decide_eq_false hro)

/-- In the history each transaction has its commit last. -/
lemma commitsLast (h : TraceKnown σ B) : CommitsLast (serialHistory σ.trace) := by
  intro h₁ T h₂ heq
  obtain ⟨tr₁, e, tr₂, m₁, m₂, htr, hm, -, rfl⟩ := exists_of_flatMap_eq heq
  have hen := Event.enters_of_eq hm
  generalize hl : m₁ ++ Entry.commit T :: m₂ = m at hen
  cases hen with
  | @snapshot T' b hro =>
      obtain ⟨n, h1, -⟩ | ⟨n, h1, -⟩ := append_cons_eq_append hl.symm
      · have hmem : .commit T ∈ (snapshotReads σ.trace T').map (Entry.access T') := by
          rw [h1]
          simp
        simp at hmem
      · obtain ⟨-, h2⟩ | ⟨-, h2⟩ := List.singleton_eq_append_iff.mp h1
        swap
        · cases h2
        obtain ⟨hT, rfl⟩ := List.cons.inj h2
        cases hT
        exact notMem_history (fun _ b' => h.not_created_after htr) fun hro' => by
          rw [hro] at hro'
          cases hro'
  | @commits T' hro =>
      obtain ⟨-, h2⟩ | ⟨-, h2⟩ := List.singleton_eq_append_iff.mp hl.symm
      swap
      · cases h2
      obtain ⟨hT, rfl⟩ := List.cons.inj h2
      cases hT
      exact notMem_history (fun hro' => by
        rw [hro] at hro'
        cases hro') fun _ => h.accessing.last htr
  | accesses hacc hro =>
      obtain ⟨-, h2⟩ | ⟨-, h2⟩ := List.singleton_eq_append_iff.mp hl.symm <;> cases h2

/-- The serial execution of the history is that of the trace, where no write is lost. -/
lemma serial_serialHistory (h : TraceKnown σ B) (hk : WritesKept σ.trace) :
    Serial.serial (serialHistory σ.trace) = serialExecution σ.trace := by
  rw [hk.serialExecution_eq, Serial.serial, serialHistory, order_history, serialOrder]
  refine List.flatMap_congr fun T hT => ?_
  cases hro : readOnlyIn σ.trace T with
  | false => exact ops_history hro
  | true =>
      obtain ⟨tr₁, tr₂, htr⟩ := List.append_of_mem (of_decide_eq_true hro)
      have h1 : ∀ b, .created T b ∉ tr₁ := fun b => h.created.once htr
      have h2 : ∀ b, .created T b ∉ tr₂ := fun b => h.not_created_after htr
      have hops : Serial.ops (history (readOnlyIn σ.trace) (snapshotReads σ.trace)
          (tr₁ ++ .created T true :: tr₂)) T = snapshotReads σ.trace T :=
        ops_history_snapshot hro h1 h2
      rw [← htr] at hops
      rw [hops, snapshotReads, if_pos hro]

end TraceKnown

/-! ### Reads under locks -/

lemma ReadOnlySilent.writesNone {tr : List Event} (h : ReadOnlySilent tr)
    (htr : tr = tr₁ ++ tr₂) : WritesNone (readOnlyIn tr) (snapshotReads tr) tr₁ where
  snap T v y hmem := by
    rw [snapshotReads] at hmem
    split_ifs at hmem with hro
    · exact h T (of_decide_eq_true hro) v y hmem
    · cases hmem
  trace T hro v y hmem := by
    refine h T (of_decide_eq_true hro) v y ?_
    rw [htr, accesses_append]
    exact List.mem_append_left _ hmem

namespace LockedRead

variable {τ : State} {L : List SiteId}

/-- The lock changes no copy. -/
lemma copyReadable_iff (h : LockedRead tr₁ tr₂ T s v x τ L) (hm : Met l τ) :
    copyReadable tr₁ s v = true ↔ τ.isReadAvailable s v = true := by
  rw [copyReadable, State.isReadAvailable, hm.sites]
  rcases h.lock with ⟨rfl, -⟩ | rfl
  · rfl
  · rw [redo_append, List.foldl_cons, List.foldl_nil, Event.redo, readAvailable_changeCopies]

/-- A readable copy has the value that was committed last. -/
lemma value_eq (h : LockedRead tr₁ tr₂ T s v x τ L) (hm : Met l τ)
    (hr : v.isOdd = false → copyReadable tr₁ s v = true) : x = committed tr₁ v := by
  have hread : τ.isReadAvailable s v = true := by
    cases hv : v.isOdd with
    | true => exact h.odd hv
    | false => exact (h.copyReadable_iff hm).mp (hr hv)
  have hlock : committed τ.trace v = committed tr₁ v := by
    rcases h.lock with ⟨rfl, -⟩ | rfl
    · rfl
    · rw [committed_append_of_ne (by simp)]
  calc x = (τ.getVariable s v).value := h.value
    _ = committed τ.trace v := hm.reached.good.inv.one_copy h.copy hread
    _ = committed tr₁ v := hlock

/-- The variable has not been written by the transaction that gets the lock. -/
lemma unwritten (h : LockedRead tr₁ tr₂ T s v x τ L) (hm : Met l τ) (hT : T ∈ τ.transactions) :
    lastWrite (accesses tr₁ T) v = none := by
  have hacc : accesses tr₁ T = accesses τ.trace T := by
    rcases h.lock with ⟨rfl, -⟩ | rfl
    · rfl
    · rw [accesses_append]
      exact List.append_nil _
  rw [hacc]
  refine Option.eq_none_iff_forall_ne_some.mpr fun y hy => ?_
  obtain ⟨s', hp⟩ := (hm.pending T hT v y).mp hy
  have hi := hm.reached.good.inv
  have hx : τ.view.excl T s' v := hi.excl_of_pending hp
  exact (h.free s' (hi.excl_copies hx) (hi.excl_up hx) T).1 hx

/-- The lock in the trace up to a later commit. -/
lemma lock_before (h : LockedRead tr₁ (a₁ ++ .committed T' :: tr₂) T s v x τ L) {b : Bool}
    (hcr : .created T b ∈ tr₁) : ∃ p q, tr₁ ++ .reads T s v x :: a₁ = p ++ .sharedLock T v L :: q ∧
      .created T b ∈ p := by
  rcases h.lock with ⟨rfl, tr₃, heq⟩ | rfl
  · cases a₁ with
    | nil => cases heq
    | cons e a₁ =>
        obtain ⟨rfl, -⟩ := List.cons.inj heq
        exact ⟨τ.trace ++ [.reads T s v x], a₁, by simp, List.mem_append_left _ hcr⟩
  · refine ⟨τ.trace, .reads T s v x :: a₁, by simp, ?_⟩
    exact (List.mem_append.mp hcr).resolve_right (by simp)

end LockedRead

/-- The locked copies cover the variable that was read, until the reader commits. -/
lemma covers_of_protected {p m n : List Event} {L : List SiteId} (hp : ReadsProtected σ.trace)
    (htr : σ.trace = p ++ .sharedLock T v L :: m ++ n) (hc : .committed T ∈ n)
    (hodd : v.isOdd = true → v.home ∈ L) :
    Covers copies (fun s => siteUp (p ++ .sharedLock T v L :: m) s = true) {s | s ∈ L} v := by
  rintro ⟨s, hs, hup⟩
  cases hv : v.isOdd with
  | true =>
      rw [copies_eq_of_odd hv] at hs
      obtain rfl := hs
      exact ⟨_, hodd hv, hup⟩
  | false => exact hp.covered htr hc hv ⟨s, hup⟩

/-- Until a transaction commits, no other one commits a write of a variable that it has read. -/
lemma not_committed_between (ha : Admissible l) (hr : Reaches l σ) (hp : ReadsProtected σ.trace)
    (htr : σ.trace = tr₁ ++ .reads T s v x :: (a₁ ++ .committed T' :: tr₂))
    (hcr : .created T false ∈ tr₁) (hc : .committed T ∈ tr₂)
    (hw : .write v y ∈ accesses (tr₁ ++ .reads T s v x :: a₁) T') : T' = T := by
  have hk := traceKnown ha hr
  obtain ⟨l₁, τ, L, hm, -, hlr⟩ := exists_lockedRead ha hr htr hcr
  obtain ⟨p, q, hpq, hcrp⟩ := hlr.lock_before hcr
  have htr' : σ.trace = (tr₁ ++ .reads T s v x :: a₁) ++ .committed T' :: tr₂ := by
    rw [htr, List.append_assoc, List.cons_append]
  obtain ⟨l₂, τ', es, hm', hT', heq, hnil, hes⟩ := exists_met_of_committed ha hr htr'
  rw [heq, accesses_append, hnil, List.append_nil] at hw
  -- the lock is in the trace of the state in which `T'` commits
  obtain ⟨q', hq', rfl⟩ : ∃ q', τ'.trace = p ++ .sharedLock T v L :: q' ∧ q = q' ++ es := by
    rcases append_cons_eq_append (heq.symm.trans hpq) with hin | ⟨n, hn, -⟩
    · exact hin
    · obtain ⟨T₁, s₁, v₁, x₁, ts₁, h1⟩ := hes (.sharedLock T v L) (by rw [hn]; simp)
      cases h1
  obtain ⟨c₁, c₂, rfl⟩ := List.append_of_mem hc
  have htr₂ : σ.trace = p ++ [.sharedLock T v L] ++ (q' ++ es ++ .committed T' :: c₁) ++
      .committed T :: c₂ := by
    rw [htr', hpq]
    simp
  have hend := not_ends_of_committed ha hr htr₂ fun b hb =>
    hk.not_created (htr₂.trans (List.append_assoc _ _ _)) (List.mem_append_left _ hcrp)
      (List.mem_append_left _ hb)
  refine sole_committer hm' hq' (fun a hact => hend a (by simp [hact])) (fun m hpre => ?_) hT' hw
  obtain ⟨n, rfl⟩ := hpre
  have htr₃ : σ.trace = p ++ .sharedLock T v L :: m ++
      (n ++ es ++ .committed T' :: (c₁ ++ .committed T :: c₂)) := by
    rw [htr₂]
    simp
  refine covers_of_protected hp htr₃ (by simp) fun hv => ?_
  have hs : s = v.home := hlr.copy hv
  exact hs ▸ hlr.locked s hlr.copy (hlr.odd hv)

/-! ### Snapshots -/

/-- A read-only transaction reads the values that were committed before its begin. -/
lemma committed_of_snapshotRead (ha : Admissible l) (hr : Reaches l σ)
    (hs : ∀ ts T v τ t tr, SnapshotReadDuring l ts T v τ t tr →
      τ.SnapshotReadable tr t.timestamp v)
    (htr : σ.trace = tr₁ ++ .created T true :: tr₂ ++ .reads T s v x :: tr₃) :
    x = committed tr₁ v := by
  rcases placed_reaches ha hr _ _ _ htr with ⟨T', hT'⟩ | ⟨r, τ, es₁, es₂, hp⟩
  · cases hT'
  obtain ⟨o, τ', hx, hout⟩ := hp.outcome
  have hes : Event.reads T s v x ∈ es₁ ++ .reads T s v x :: es₂ := by simp
  obtain ⟨ts, t, rfl, ht, -⟩ := hout.reads_mem hes
  obtain ⟨l', -, hS⟩ := (stamped_invariant fun _ _ => True).called ha (by simp) hp.assumed
  obtain ⟨l'', hm⟩ := met_called ha hp.assumed
  obtain ⟨tr, htr'⟩ : ∃ tr, τ.trace = tr₁ ++ .created T true :: tr := by
    rcases append_cons_eq_append hp.before.symm with ⟨tr, h', -⟩ | ⟨n, h1, -⟩
    · exact ⟨tr, h'⟩
    · have hcr : .created T true ∈ es₁ := h1 ▸ List.mem_append_right n List.mem_cons_self
      obtain ⟨ts', hr'⟩ := hout.created_mem (List.mem_append_left _ hcr)
      cases hr'
  have hro : t.isReadOnly = true :=
    hm.created.unique (hm.created.live ht) (by rw [htr']; simp)
  have hd : SnapshotReadDuring l ts T v τ t tr₁ := ⟨hp.assumed, ht, hro, tr, htr'⟩
  exact ((hS.readsSnapshot_iff ht hro htr').mpr (hs ts T v τ t tr₁ hd) o τ' _ s x hx hout.trace
    hes).2

/-- The commits up to an entry of the trace lead to the database at the entry. -/
lemma Met.store_eq {τ : State} {es : List Event} (hm : Met l τ)
    {ro : TranId → Bool} {snap : TranId → List (Op VarId Value)}
    (hw : WritesNone ro snap (τ.trace ++ es)) (hc : ∀ T, .committed T ∉ es)
    (hi : ∀ T s v x ts, .installs T s v x ts ∉ es) :
    store initialDb (history ro snap (τ.trace ++ es)) = committed (τ.trace ++ es) := by
  rw [hw.store_append hc, hm.stored ro snap hw.of_append, committed_append_of_ne hi]

/-- The history before the begin of a transaction leads to the database at its begin. -/
lemma store_eq_of_created (ha : Admissible l) (hr : Reaches l σ) {b : Bool}
    (hw : ReadOnlySilent σ.trace) (htr : σ.trace = tr₁ ++ .created T b :: tr₂) :
    store initialDb (history (readOnlyIn σ.trace) (snapshotReads σ.trace) tr₁) =
      committed tr₁ := by
  rcases placed_reaches ha hr _ _ _ htr with ⟨T', hT'⟩ | ⟨r, τ, es₁, es₂, hp⟩
  · cases hT'
  obtain ⟨o, τ', -, hout⟩ := hp.outcome
  obtain ⟨l', hm⟩ := met_called ha hp.assumed
  obtain ⟨ts, rfl⟩ := hout.created_mem (T := T) (b := b) (by simp)
  have hes := hout.create_eq
  obtain ⟨rfl, -⟩ | ⟨-, h2⟩ := List.singleton_eq_append_iff.mp hes.symm
  swap
  · cases h2
  have hwn := hw.writesNone htr
  rw [hp.before] at hwn ⊢
  exact hm.store_eq hwn (by simp) (by simp)

/-- A begin in the trace is that of an instruction. -/
lemma fed_of_created (h : State.Traced (CalledDuring l) σ) {b : Bool}
    (hc : .created T b ∈ σ.trace) : ∃ ts, Fed l (.create ts T b) := by
  obtain ⟨tr₁, tr₂, htr⟩ := List.append_of_mem hc
  rcases h _ _ _ htr with ⟨T', hT'⟩ | ⟨r, τ, o, τ', es₁, es₂, hcalled, -, hout, -⟩
  · cases hT'
  · obtain ⟨ts, rfl⟩ := hout.created_mem (List.mem_append_right es₁ List.mem_cons_self)
    exact ⟨ts, fed_of_called hcalled⟩

lemma not_created_true (hl : ∀ x ∈ l, ∀ T, x.insr ≠ .beginRO T)
    (h : State.Traced (CalledDuring l) σ) : .created T true ∉ σ.trace := by
  intro hc
  obtain ⟨ts, x, hx, hr⟩ := fed_of_created h hc
  generalize hi : x.insr = i at hr
  cases makes_of_request hr
  exact hl x hx T hi

/-- Without read-only transactions, no snapshot is read. -/
lemma not_snapshotReadDuring (ha : Admissible l) (hl : ∀ x ∈ l, ∀ T, x.insr ≠ .beginRO T)
    {ts : Timestamp} {τ : State} {t : Transaction} : ¬SnapshotReadDuring l ts T v τ t tr₁ := by
  intro h
  obtain ⟨l', -, htr⟩ := (traced_invariant (CalledDuring l)).called ha (fun _ _ => id) h.called
  obtain ⟨tr, heq⟩ := h.begun
  exact not_created_true hl htr (heq ▸ List.mem_append_right tr₁ List.mem_cons_self)

/-! ### Serializability -/

/-- The accesses of one transaction at the end of a history change no database. -/
lemma store_append_accesses (h : List (Entry TranId VarId Value)) (T : TranId)
    (ops : List (Op VarId Value)) :
    store initialDb (h ++ ops.map (Entry.access T)) = store initialDb h := by
  funext v
  refine Serial.store_of_uncommitted fun m T' n heq => ?_
  have hmem : .commit T' ∈ ops.map (Entry.access T) := by
    rw [heq]
    simp
  simp at hmem

/-- A read of a read-only transaction, in the history. -/
lemma snapshotRead_last (ha : Admissible l) (hr : Reaches l σ) (hw : ReadOnlySilent σ.trace)
    (hs : ∀ ts T v τ t tr, SnapshotReadDuring l ts T v τ t tr →
      τ.SnapshotReadable tr t.timestamp v) {b : Bool} {ops₁ ops₂ : List (Op VarId Value)}
    (htr : σ.trace = tr₁ ++ .created T b :: tr₂) (hro : readOnlyIn σ.trace T = true)
    (hops : snapshotReads σ.trace T = ops₁ ++ .read v x :: ops₂) :
    x = store initialDb (history (readOnlyIn σ.trace) (snapshotReads σ.trace) tr₁) v := by
  have hk := traceKnown ha hr
  have hcr := of_decide_eq_true hro
  obtain rfl : b = true := hk.created.unique (by rw [htr]; simp) hcr
  rw [store_eq_of_created ha hr hw htr]
  have hmem : .read v x ∈ accesses σ.trace T := by
    rw [snapshotReads, if_pos hro] at hops
    rw [hops]
    simp
  obtain ⟨e, he, hacc⟩ := mem_accesses.mp hmem
  obtain ⟨s, rfl⟩ := Event.eq_reads_of_access? hacc
  obtain ⟨m, n, rfl⟩ := List.append_of_mem (hk.of_access htr he rfl)
  have htr' : σ.trace = tr₁ ++ .created T true :: m ++ .reads T s v x :: n := by
    rw [htr, List.append_assoc, List.cons_append]
  exact committed_of_snapshotRead ha hr hs htr'

/-- A read under a lock, in the history. -/
lemma lockedRead_last (ha : Admissible l) (hr : Reaches l σ) (hp : ReadsProtected σ.trace)
    (hw : ReadOnlySilent σ.trace) (htr : σ.trace = tr₁ ++ .reads T s v x :: tr₂)
    (hro : readOnlyIn σ.trace T = false) (hc : .committed T ∈ tr₂) :
    x = runOps (accesses tr₁ T)
      (store initialDb (history (readOnlyIn σ.trace) (snapshotReads σ.trace) tr₁)) v := by
  have hcr := (traceKnown ha hr).created_false htr hro
  obtain ⟨l', τ, L, hm, hT, h⟩ := exists_lockedRead ha hr htr hcr
  have hstore : store initialDb (history (readOnlyIn σ.trace) (snapshotReads σ.trace) tr₁) =
      committed tr₁ := by
    have hwn := hw.writesNone htr
    rcases h.lock with ⟨rfl, -⟩ | rfl
    · exact hm.stored _ _ hwn
    · exact hm.store_eq hwn (by simp) (by simp)
  rw [Serial.runOps_apply, hstore, h.unwritten hm hT, Option.getD_none]
  exact h.value_eq hm (hp.readable htr hcr hc)

/-- In the history, no other transaction commits a write of a variable between the read and the
commit of a transaction. -/
lemma not_written_between (ha : Admissible l) (hr : Reaches l σ) (hp : ReadsProtected σ.trace)
    (hw : ReadOnlySilent σ.trace) (htr : σ.trace = tr₁ ++ .reads T s v x :: tr₂)
    (hro : readOnlyIn σ.trace T = false) (hc : .committed T ∈ tr₂)
    {m n : List (Entry TranId VarId Value)}
    (heq : history (readOnlyIn σ.trace) (snapshotReads σ.trace) tr₂ = m ++ .commit T' :: n)
    (hno : .commit T ∉ m)
    (hy : .access T' (.write v y) ∈
      history (readOnlyIn σ.trace) (snapshotReads σ.trace) tr₁ ++ m) : T' = T := by
  have hwn := hw.writesNone (List.append_nil σ.trace).symm
  obtain ⟨a₁, e, a₂, k₁, k₂, rfl, hent, rfl, -⟩ := exists_of_flatMap_eq heq
  rw [← history] at hy hno
  have hmem : .access T' (.write v y) ∈
      history (readOnlyIn σ.trace) (snapshotReads σ.trace) (tr₁ ++ (a₁ ++ [e])) := by
    rw [history_append, history_append, history_singleton, hent, ← List.append_assoc,
      ← List.append_assoc]
    exact List.mem_append_left _ (by rwa [List.append_assoc])
  obtain ⟨hro', hwr⟩ := hwn.write_mem_history hmem
  -- the transaction writes, so that its commit is where the trace has it
  obtain rfl : e = .committed T' := by
    have hcm : .commit T' ∈ history (readOnlyIn σ.trace) (snapshotReads σ.trace) [e] := by
      rw [history_singleton, hent]
      simp
    rcases commit_mem_history.mp hcm with ⟨h, -⟩ | ⟨-, h⟩
    · rw [hro'] at h
      cases h
    · exact (List.mem_singleton.mp h).symm
  rcases List.mem_append.mp hc with hc | hc
  · exact absurd (List.mem_append_left _ (commit_mem_history.mpr (Or.inr ⟨hro, hc⟩))) hno
  rcases List.mem_cons.mp hc with heq' | hc
  · cases heq'
    rfl
  have hcr := (traceKnown ha hr).created_false htr hro
  refine not_committed_between (y := y) ha hr hp htr hcr hc ?_
  obtain ⟨e, he, hacc⟩ := mem_accesses.mp hwr
  refine mem_accesses.mpr ⟨e, ?_, hacc⟩
  simp only [List.mem_append, List.mem_cons, List.not_mem_nil, or_false] at he ⊢
  rcases he with he | he | rfl
  · exact Or.inl he
  · exact Or.inr (Or.inr he)
  · cases hacc

/-- The reads of the history return what the transactions would read when they commit. -/
lemma readsLast (ha : Admissible l) (hr : Reaches l σ) (hp : ReadsProtected σ.trace)
    (hw : ReadOnlySilent σ.trace)
    (hs : ∀ ts T v τ t tr, SnapshotReadDuring l ts T v τ t tr →
      τ.SnapshotReadable tr t.timestamp v) :
    ReadsLast initialDb (serialHistory σ.trace) := by
  intro h₁ T v x h₂ heq hc
  have hk := traceKnown ha hr
  have hwn := hw.writesNone (List.append_nil σ.trace).symm
  obtain ⟨tr₁, e, tr₂, m₁, m₂, htr, hm, rfl, rfl⟩ := exists_of_flatMap_eq heq
  have hen := Event.enters_of_eq hm
  rw [← history, ← history] at *
  generalize hl : m₁ ++ Entry.access T (.read v x) :: m₂ = m at hen
  cases hen with
  | @snapshot T' b hro =>
      obtain ⟨n, h1, rfl⟩ | ⟨n, h1, -⟩ := append_cons_eq_append hl.symm
      swap
      · obtain ⟨-, h2⟩ | ⟨-, h2⟩ := List.singleton_eq_append_iff.mp h1 <;> cases h2
      obtain ⟨ops₁, ops₂, hops, rfl, h2⟩ := List.map_eq_append_iff.mp h1
      obtain ⟨op, ops₂, rfl, hop, rfl⟩ := List.map_eq_cons_iff.mp h2
      cases hop
      refine ⟨?_, fun m T₁ n' heq' hno hne => ?_⟩
      · rw [store_append_accesses, Serial.runOps_of_unwritten]
        · exact snapshotRead_last ha hr hw hs htr hro hops
        · intro y hy
          have hmem : .access T (.write v y) ∈ serialHistory σ.trace := by
            rw [heq]
            exact List.mem_append_left _ (Serial.mem_ops.mp hy)
          rw [(hwn.write_mem_history hmem).1] at hro
          cases hro
      · -- the next commit is that of the reader
        exfalso
        rw [List.append_assoc] at heq'
        rcases append_cons_eq_append heq' with ⟨k, hk', -⟩ | ⟨k, hk', rfl⟩
        · have hmem : .commit T₁ ∈ ops₂.map (Entry.access T) := by
            rw [hk']
            simp
          simp at hmem
        · cases k with
          | nil =>
              cases hk'
              exact hne rfl
          | cons e k =>
              obtain ⟨rfl, -⟩ := List.cons.inj hk'
              exact hno (by simp)
  | commits => obtain ⟨-, h2⟩ | ⟨-, h2⟩ := List.singleton_eq_append_iff.mp hl.symm <;> cases h2
  | accesses hacc hro =>
      obtain ⟨rfl, h2⟩ | ⟨-, h2⟩ := List.singleton_eq_append_iff.mp hl.symm
      swap
      · cases h2
      obtain ⟨hop, rfl⟩ := List.cons.inj h2
      cases hop
      obtain ⟨s, rfl⟩ := Event.eq_reads_of_access? hacc
      rw [List.append_nil, List.nil_append] at *
      have hc' : .committed T ∈ tr₂ := by
        refine (commit_mem_history.mp hc).elim (fun h => ?_) And.right
        rw [hro] at h
        cases h.1
      refine ⟨?_, fun m T' n heq' hno hne y hy => ?_⟩
      · rw [ops_history hro]
        exact lockedRead_last ha hr hp hw htr hro hc'
      · exact hne (not_written_between ha hr hp hw htr hro hc' heq' hno hy)

/-- The serial execution of the transactions leads to the database of the run. -/
lemma legal_serialExecution (ha : Admissible l) (hr : Reaches l σ)
    (hp : ReadsProtected σ.trace) (hw : ReadOnlySilent σ.trace) (hkept : WritesKept σ.trace)
    (hs : ∀ ts T v τ t tr, SnapshotReadDuring l ts T v τ t tr →
      τ.SnapshotReadable tr t.timestamp v) :
    Legal initialDb (serialExecution σ.trace) ∧
      runOps (serialExecution σ.trace) initialDb = committed σ.trace := by
  have hk := traceKnown ha hr
  have hstored := ((stored_invariant fun _ _ => True).reaches ha (by simp) hr).2
  obtain ⟨hlegal, hdb⟩ := Serial.serializable hk.commitsLast (readsLast ha hr hp hw hs)
  rw [hk.serial_serialHistory hkept] at hlegal hdb
  refine ⟨hlegal, ?_⟩
  calc runOps (serialExecution σ.trace) initialDb
      = store initialDb (serialHistory σ.trace) := hdb
    _ = committed σ.trace := hstored _ _ (hw.writesNone (List.append_nil σ.trace).symm)

/-- **One-copy serializability.** Where the copies that are read under locks are protected until the
reader commits, the read-only transactions write nothing and find their snapshots, and no granted
write is lost, the transactions can be executed one after the other on one database, with the same
reads, and the readable copies of the run have its values then. Every transaction that commits is in
the order. -/
theorem one_copy_serializable (ha : Admissible l) (hr : Reaches l σ)
    (hp : ReadsProtected σ.trace) (hw : ReadOnlySilent σ.trace) (hkept : WritesKept σ.trace)
    (hs : ∀ ts T v τ t tr, SnapshotReadDuring l ts T v τ t tr →
      τ.SnapshotReadable tr t.timestamp v) :
    ((serialOrder σ.trace).Nodup ∧ ∀ T, .committed T ∈ σ.trace → T ∈ serialOrder σ.trace) ∧
    Legal initialDb (serialExecution σ.trace) ∧
    ∀ s v, s ∈ copies v → σ.isReadAvailable s v = true →
      (σ.getVariable s v).value = runOps (serialExecution σ.trace) initialDb v := by
  obtain ⟨hlegal, hdb⟩ := legal_serialExecution ha hr hp hw hkept hs
  have horder : Serial.order (serialHistory σ.trace) = serialOrder σ.trace := order_history
  have hnodup := (traceKnown ha hr).commitsLast.nodup
  refine ⟨⟨horder ▸ hnodup, fun T => mem_serialOrder⟩, hlegal, fun s v hs hread => ?_⟩
  rw [hdb]
  exact (good_reaches ha hr).inv.one_copy hs hread

/-- The second transaction reads a variable that was committed while the first site was down, and
the site with the copy that it reads fails before it commits; the third transaction has to wait. -/
def serialRun : List Feed :=
  inOrder Schedule.stored [.fail 1, .begin 1, .write 1 2 7, .finish 1, .recover 1, .begin 2,
    .read 2 2, .fail 10, .begin 3, .write 3 2 9, .finish 2, .finish 3]

theorem one_copy_serializable_serialRun : ∃ σ, Reaches serialRun σ ∧
    serialExecution σ.trace = [.write x2 7, .read x2 7, .write x2 9] ∧
    Legal initialDb (serialExecution σ.trace) ∧
    (σ.getVariable s1 x2).value = runOps (serialExecution σ.trace) initialDb x2 := by
  obtain ⟨σ, hr, hf⟩ := exists_ok_of_eval (x := run serialRun)
    (f := fun σ => (serialExecution σ.trace, decide (ReadsProtected σ.trace),
      decide (WritesKept σ.trace), σ.isReadAvailable s1 x2))
    (a := ([.write x2 7, .read x2 7, .write x2 9], true, true, true)) (by decide +kernel)
  simp only [Prod.mk.injEq, decide_eq_true_iff] at hf
  have hl : ∀ x ∈ serialRun, ∀ T, x.insr ≠ .beginRO T := by simp [serialRun, inOrder]
  have ha : Admissible serialRun := by decide +kernel
  have htr := traced_reaches ha (.run hr)
  obtain ⟨-, hlegal, hval⟩ := one_copy_serializable ha (.run hr) hf.2.1
    (fun T hT => absurd hT (not_created_true hl htr)) hf.2.2.1
    fun ts T v τ t tr h => absurd h (not_snapshotReadDuring ha hl)
  exact ⟨σ, .run hr, hf.1, hlegal, hval s1 x2 (mem_copies_of_even rfl s1) hf.2.2.2⟩

/-- The first transaction writes a replicated variable twice. -/
def twiceWritingRun : List Feed :=
  inOrder Schedule.stored [.begin 1, .write 1 2 5, .write 1 2 6, .finish 1, .begin 2, .read 2 2,
    .finish 2]

/-- The second write is lost, and the serial execution is not legal. -/
example : (run twiceWritingRun).toOption.map (fun σ =>
    (decide (WritesKept σ.trace), serialExecution σ.trace)) =
      some (false, [.write x2 5, .write x2 6, .read x2 5]) := by
  decide +kernel

end Runs

end RepCRec
