import RepCRec.Schedules.Program

/-!
Runs without conflicts: no site fails, and a variable that a transaction accesses under locks has
been accessed by no other transaction that is open. In such a run nothing waits and nothing is
aborted, whatever the order in which the containers are visited, and every end commits
(`conflict_free_run`).
-/

namespace RepCRec

open AvailableCopies (Action Step Steps)
open Container (IterOrder Acyclic bind_eq_ok ok_bind)

/-! ### Conflicts -/

namespace Instruction

/-- The transaction and the variable of a read. -/
def reading? : Instruction → Option (TranId × ℤ)
  | .read T v => some (T, v)
  | _ => none

/-- The transaction and the variable of a write. -/
def writing? : Instruction → Option (TranId × ℤ)
  | .write T v _ => some (T, v)
  | _ => none

/-- The transaction and the variable of a read or write. -/
def access? (insr : Instruction) : Option (TranId × ℤ) := insr.reading?.or insr.writing?

/-- The site that the instruction fails. -/
def failing? : Instruction → Option ℤ
  | .fail s => some s
  | _ => none

end Instruction

/-- The transaction is begun as a read-only one. -/
def BegunReadOnly (l : List Feed) (T : TranId) : Prop := ∃ x ∈ l, x.insr = .beginRO T

/-- The transaction is ended. -/
def Ended (l : List Feed) (T : TranId) : Prop := ∃ x ∈ l, T ∈ x.insr.ended?

instance (l : List Feed) (T : TranId) : Decidable (Begun l T) :=
  inferInstanceAs (Decidable (∃ x ∈ l, T ∈ x.insr.begun?))

instance (l : List Feed) (T : TranId) : Decidable (BegunReadOnly l T) :=
  inferInstanceAs (Decidable (∃ x ∈ l, x.insr = .beginRO T))

instance (l : List Feed) (T : TranId) : Decidable (Ended l T) :=
  inferInstanceAs (Decidable (∃ x ∈ l, T ∈ x.insr.ended?))

/-- The instruction does not conflict with the instructions of the past: a variable that its
transaction accesses was accessed by no other one that is open, the transaction reads it before all
other accesses, and writes it once, because a read of a variable that it has locked is an error and
a second write of a replicated one is lost. Read-only transactions take no locks, so that their
reads do not matter, and they do not write. -/
structure ConflictFreeNext (past : List Feed) (x : Feed) : Prop where
  not_fails : x.insr.failing? = none
  named : -1 ∉ x.insr.tranId?
  end_after_begin : ∀ T ∈ x.insr.ended?, Begun past T
  alone : ∀ p ∈ x.insr.access?, BegunReadOnly past p.1 ∨ ∀ y ∈ past, ∀ q ∈ y.insr.access?,
    q.2 = p.2 → q.1 = p.1 ∨ BegunReadOnly past q.1 ∨ Ended past q.1
  reads_first : ∀ p ∈ x.insr.reading?, BegunReadOnly past p.1 ∨ ∀ y ∈ past, p ∉ y.insr.access?
  writes_once : ∀ p ∈ x.insr.writing?, ¬BegunReadOnly past p.1 ∧ ∀ y ∈ past, p ∉ y.insr.writing?

instance (past : List Feed) (x : Feed) : Decidable (ConflictFreeNext past x) :=
  decidable_of_iff
    (x.insr.failing? = none ∧ -1 ∉ x.insr.tranId? ∧ (∀ T ∈ x.insr.ended?, Begun past T) ∧
      (∀ p ∈ x.insr.access?, BegunReadOnly past p.1 ∨ ∀ y ∈ past, ∀ q ∈ y.insr.access?,
        q.2 = p.2 → q.1 = p.1 ∨ BegunReadOnly past q.1 ∨ Ended past q.1) ∧
      (∀ p ∈ x.insr.reading?, BegunReadOnly past p.1 ∨ ∀ y ∈ past, p ∉ y.insr.access?) ∧
      ∀ p ∈ x.insr.writing?, ¬BegunReadOnly past p.1 ∧ ∀ y ∈ past, p ∉ y.insr.writing?)
    ⟨fun ⟨h1, h2, h3, h4, h5, h6⟩ => ⟨h1, h2, h3, h4, h5, h6⟩,
      fun ⟨h1, h2, h3, h4, h5, h6⟩ => ⟨h1, h2, h3, h4, h5, h6⟩⟩

/-- No instruction conflicts with those before it. -/
def ConflictFreeFrom : List Feed → List Feed → Prop
  | _, [] => True
  | past, x :: l => ConflictFreeNext past x ∧ ConflictFreeFrom (past ++ [x]) l

instance decidableConflictFreeFrom : ∀ past l, Decidable (ConflictFreeFrom past l)
  | _, [] => inferInstanceAs (Decidable True)
  | past, x :: l =>
      have := decidableConflictFreeFrom (past ++ [x]) l
      inferInstanceAs (Decidable (ConflictFreeNext past x ∧ ConflictFreeFrom (past ++ [x]) l))

/-- A run without conflicts. -/
def ConflictFree (l : List Feed) : Prop := ConflictFreeFrom [] l

instance (l : List Feed) : Decidable (ConflictFree l) :=
  inferInstanceAs (Decidable (ConflictFreeFrom [] l))

lemma conflictFreeFrom_append (past l₁ l₂ : List Feed) : ConflictFreeFrom past (l₁ ++ l₂) ↔
    ConflictFreeFrom past l₁ ∧ ConflictFreeFrom (past ++ l₁) l₂ := by
  induction l₁ generalizing past with
  | nil => simp [ConflictFreeFrom]
  | cons x l₁ ih => simp [ConflictFreeFrom, ih, and_assoc]

lemma conflictFree_snoc (l : List Feed) (x : Feed) :
    ConflictFree (l ++ [x]) ↔ ConflictFree l ∧ ConflictFreeNext l x := by
  simp [ConflictFree, conflictFreeFrom_append, ConflictFreeFrom]

section Snoc

variable {l : List Feed} {x : Feed} {T : TranId}

lemma ended_snoc : Ended (l ++ [x]) T ↔ Ended l T ∨ T ∈ x.insr.ended? := by
  simp [Ended, or_and_right, exists_or]

lemma begunReadOnly_snoc :
    BegunReadOnly (l ++ [x]) T ↔ BegunReadOnly l T ∨ x.insr = .beginRO T := by
  simp [BegunReadOnly, or_and_right, exists_or]

end Snoc

section Requests

variable {insr : Instruction} {ts ts' : Timestamp} {T : TranId} {v : VarId} {x : Value} {n : ℤ}

lemma VarId.id_of_ofInt? (h : VarId.ofInt? n = some v) : n = v.id := by
  rw [VarId.ofInt?] at h
  split_ifs at h with hn
  cases h
  have h1 := hn.1
  dsimp only
  omega

lemma insr_of_read (h : insr.request ts = .ok (.read ts' T v)) : insr = .read T v.id := by
  cases makes_of_request h with
  | read hn => rw [VarId.id_of_ofInt? hn]

lemma insr_of_write (h : insr.request ts = .ok (.write ts' T v x)) : insr = .write T v.id x := by
  cases makes_of_request h with
  | write hn => rw [VarId.id_of_ofInt? hn]

lemma insr_of_finish (h : insr.request ts = .ok (.finish ts' T)) : insr = .finish T := by
  cases makes_of_request h
  rfl

lemma access_of_request {r : Request} (h : insr.request ts = .ok r)
    (ha : r.access? = some (T, v)) : (T, (v.id : ℤ)) ∈ insr.access? := by
  cases r with
  | read =>
      cases ha
      rw [insr_of_read h]
      rfl
  | write =>
      cases ha
      rw [insr_of_write h]
      rfl
  | _ => cases ha

end Requests

/-! ### Requests without conflicts -/

namespace State

variable {σ σ' : State} {o : IterOrder} {r : Request} {es : List Event} {T : TranId} {v : VarId}
  {sch : Schedule}

/-- When no one waits, there is no deadlock. -/
lemma resolved_of_waitsFor (hw : ∀ T, σ.waitsFor T = []) (sch : Schedule) :
    ∃ g, σ.resolved sch = .ok { σ with waitForGraph := g } ∧
      ∀ T, ({ σ with waitForGraph := g } : State).waitsFor T = [] := by
  obtain ⟨b, ρ, hd, hb⟩ := detectDeadlock_iff σ sch.detect
  obtain ⟨⟨g, rfl⟩, hsame⟩ := detectDeadlock_spec hd
  have hfalse : b = false := by
    rw [← Bool.not_eq_true, hb, not_not]
    intro T hT
    obtain ⟨T', hT', -⟩ := Relation.TransGen.head'_iff.mp hT
    rw [WaitsFor, hw] at hT'
    cases hT'
  subst hfalse
  refine ⟨g, ?_, fun T => (hsame T).trans (hw T)⟩
  rw [resolved, State.resolveDeadlocks, hd]

lemma isWaitingForOthers_of_waitsFor (hw : ∀ T, σ.waitsFor T = []) :
    σ.isWaitingForOthers T = false := by
  rw [isWaitingForOthers, List.any_eq_false]
  rintro ⟨T', owners⟩ he
  have hl : σ.waitForGraph.lookup T' = some owners := AList.mem_lookup_iff.mpr he
  have hnil : owners = [] := by
    have h := hw T'
    rwa [waitsFor, hl] at h
  simp [hnil]

lemma not_sentBy {L : List SiteId} (h : ∀ s ∈ L, σ.isWriteAvailable s = true → ¬σ.Blocks T v s) :
    ¬σ.SentBy T v L := by
  induction L with
  | nil => exact id
  | cons s L ih =>
      rintro (⟨hup, hb⟩ | ⟨-, hrest⟩)
      · exact h s List.mem_cons_self hup hb
      · exact ih (fun s' hs' => h s' (List.mem_cons_of_mem s hs')) hrest

/-- A transaction is not sent to wait, if no other one holds a lock and no one waits. -/
lemma not_sentToWait (hw : ∀ T, σ.waitsFor T = []) (hl : ∀ T', σ.HoldsLock T' v → T' = T) :
    ¬σ.SentToWait T v := by
  refine not_sentBy fun s hs hup hb => ?_
  rcases hb with hb | hb | hb
  · rw [Variable.hasSharedLockExcludeSelf, Bool.and_eq_true, Bool.not_eq_true',
      Bool.not_eq_true', List.isEmpty_eq_false_iff, decide_eq_false_iff_not] at hb
    obtain ⟨G, hG⟩ := List.exists_mem_of_ne_nil _ hb.1
    obtain rfl : G = T := hl G ⟨s, hs, hup, Or.inl (decide_eq_true hG)⟩
    exact hb.2 hG
  · cases hx : (σ.getVariable s v).exclusiveLockOwner with
    | none => simp [Variable.hasExclusiveLockExcludeSelf, hx] at hb
    | some G =>
        obtain rfl : G = T := hl G ⟨s, hs, hup, Or.inr (beq_iff_eq.mpr hx)⟩
        simp [Variable.hasExclusiveLockExcludeSelf, hx] at hb
  · rw [isWaitingForOthers_of_waitsFor hw] at hb
    exact Bool.false_ne_true hb.2

/-- A lock was held before the request, or the request has taken it. -/
lemma Outcome.held (h : Outcome o σ r es σ') (hg : σ.Good) (hu : σ.Unfailed) (hg' : σ'.Good)
    (hu' : σ'.Unfailed) (hfresh : r.isBegin = true → r.transactionId ∉ σ.transactions)
    (hl : σ'.HoldsLock T v) :
    σ.HoldsLock T v ∨ ∃ L, .sharedLock T v L ∈ es ∨ ∃ x, .writeLock T v L x ∈ es := by
  obtain ⟨s, hs⟩ := (hu'.holdsLock_iff hg').mp hl
  rcases (h.simulates_of_fresh hg hfresh).steps.held hs with hold | ⟨a, ha, hlock⟩
  · exact Or.inl ((hu.holdsLock_iff hg).mpr ⟨s, hold⟩)
  · obtain ⟨e, he, hact⟩ := mem_actions ha
    rcases hlock with ⟨L, rfl⟩ | ⟨L, x, rfl⟩
    · cases hact
      exact Or.inr ⟨_, Or.inl he⟩
    · cases hact
      exact Or.inr ⟨_, Or.inr ⟨x, he⟩⟩

/-- A transaction that takes a shared lock is not read-only. -/
lemma Outcome.not_readOnly {L : List SiteId} (h : Outcome o σ r es σ')
    (hmem : .sharedLock T v L ∈ es) :
    ∃ t, σ.transactions.lookup T = some t ∧ t.isReadOnly = false := by
  obtain ⟨ts, rfl⟩ := h.sharedLock_mem hmem
  cases h with
  | sharesOdd ht hro => exact ⟨_, ht, hro⟩
  | sharesEven ht hro => exact ⟨_, ht, hro⟩
  | _ => simp at hmem

end State

/-! ### Runs without conflicts -/

/-- No one waits, the open transactions are live and hold locks only on variables that they have
accessed, and so far all ends have committed. -/
structure Unhindered (l : List Feed) (σ : State) : Prop where
  queue : ∀ T, T ∉ σ.blockedTransactionsQueue
  waits : ∀ T, σ.waitsFor T = []
  live : ∀ T, T ∈ σ.transactions ↔ Begun l T ∧ ¬Ended l T
  readOnly : ∀ T t, σ.transactions.lookup T = some t → (t.isReadOnly = true ↔ BegunReadOnly l T)
  locks : ∀ T v, σ.HoldsLock T v →
    ¬BegunReadOnly l T ∧ ∃ y ∈ l, (T, (v.id : ℤ)) ∈ y.insr.access?
  granted : ∀ r, ¬State.Waits r σ.trace
  spared : ∀ T, .aborted T ∉ σ.trace
  committed : ∀ T, .committed T ∈ σ.trace ↔ Ended l T

namespace Unhindered

variable {l : List Feed} {x : Feed} {σ σ' : State} {o : IterOrder} {r : Request} {es : List Event}
  {T : TranId} {v : VarId} {ts : Timestamp}

/-- The transactions of reads, writes and ends are live. -/
lemma live_of_next (h : Unhindered l σ) (hx : AdmissibleNext l x) (hc : ConflictFreeNext l x)
    (hT : T ∈ x.insr.accessing? ∨ T ∈ x.insr.ended?) : T ∈ σ.transactions := by
  have hname : T ∈ x.insr.tranId? := by
    rcases hT with hT | hT <;> cases hi : x.insr <;> rw [hi] at hT <;> first | exact hT | cases hT
  refine (h.live T).mpr ⟨?_, fun ⟨y, hy, hend⟩ => hx.nothing_after_end T hname y hy hend⟩
  exact hT.elim (hx.access_after_begin T) (hc.end_after_begin T)

/-- No other transaction holds a lock on a variable that is accessed under locks. -/
lemma alone (h : Unhindered l σ) (hg : σ.Good) (hc : ConflictFreeNext l x)
    (ha : (T, (v.id : ℤ)) ∈ x.insr.access?) (hro : ¬BegunReadOnly l T) :
    ∀ T', σ.HoldsLock T' v → T' = T := by
  intro T' hl
  obtain ⟨hro', y, hy, hacc⟩ := h.locks T' v hl
  have hlive : T' ∈ σ.transactions := by
    by_contra hdead
    exact hg.not_holdsLock hdead hl
  rcases ((hc.alone _ ha).resolve_left hro) y hy _ hacc rfl with heq | hread | hend
  · exact heq
  · exact absurd hread hro'
  · exact absurd hend ((h.live T').mp hlive).2

/-- The transaction of a write is not read-only. -/
lemma not_readOnly (hc : ConflictFreeNext l x) {z : Value}
    (hr : x.insr.request x.timestamp = .ok (.write ts T v z)) : ¬BegunReadOnly l T :=
  (hc.writes_once (T, (v.id : ℤ)) (by rw [insr_of_write hr]; rfl)).1

/-- A request is granted. -/
lemma not_entersQueue (h : Unhindered l σ) (hg : σ.Good) (hu : σ.Unfailed)
    (hc : ConflictFreeNext l x) (hr : x.insr.request x.timestamp = .ok r)
    (hm : ∀ ts m, r ≠ .missing ts m) : ¬σ.EntersQueue r := by
  cases r with
  | missing ts m => exact absurd rfl (hm ts m)
  | write ts T v z =>
      exact State.not_sentToWait h.waits
        (h.alone hg hc (access_of_request hr rfl) (not_readOnly hc hr))
  | read ts T v =>
      rintro (⟨-, hno⟩ | ⟨hsent, t, ht, hro⟩)
      · rw [hu.isReadAvailable] at hno
        cases hno
      · refine State.not_sentToWait h.waits (h.alone hg hc (access_of_request hr rfl) ?_) hsent
        rw [← h.readOnly T t ht, hro]
        exact Bool.false_ne_true
  | _ => exact id

/-- A request succeeds. -/
lemma exists_exec (h : Unhindered l σ) (hg : σ.Good) (hS : State.Stamped l σ)
    (hx : AdmissibleNext l x) (hc : ConflictFreeNext l x)
    (hr : x.insr.request x.timestamp = .ok r) (o : IterOrder) : ∃ σ', σ.exec o r = .ok σ' := by
  cases r with
  | write ts T v z =>
      refine State.exists_exec_write (h.live_of_next hx hc (Or.inl ?_))
      rw [insr_of_write hr]
      rfl
  | read ts T v =>
      have hread := insr_of_read hr
      obtain ⟨t, ht⟩ := Dict.exists_lookup (h.live_of_next (T := T) hx hc (Or.inl (by
        rw [hread]
        rfl)))
      cases hro : t.isReadOnly with
      | true =>
          refine (State.execRead_of_isReadOnly ht hro).resolve_right ?_
          rintro ⟨-, s, hnone⟩
          obtain ⟨z, hz⟩ := hS.exists_getValue ht s v
          rw [hz] at hnone
          cases hnone
      | false =>
          refine ((State.execRead_of_not_isReadOnly ht hro (hg.apart T v)).resolve_left ?_).2
          rintro ⟨⟨ts', T', v', t', heq, -, -, -, -, hl⟩, -⟩
          cases heq
          obtain ⟨hro', y, hy, hacc⟩ := h.locks T v hl
          exact ((hc.reads_first _ (by rw [hread]; rfl)).resolve_left hro') y hy hacc
  | finish ts T =>
      refine State.exists_exec_finish (h.live_of_next hx hc (Or.inr ?_))
      rw [insr_of_finish hr]
      rfl
  | fail ts s =>
      have hno := hc.not_fails
      generalize x.insr = i at hr hno
      cases makes_of_request hr
      cases hno
  | missing ts m => exact absurd rfl (ne_missing_of_inRange hx.inRange hr ts m)
  | _ => exact ⟨_, rfl⟩

/-- A request fails no site. -/
lemma sparesSites (hc : ConflictFreeNext l x) (hr : x.insr.request x.timestamp = .ok r) :
    State.SparesSites r := by
  rintro ts s rfl
  have hno := hc.not_fails
  generalize x.insr = i at hr hno
  cases makes_of_request hr
  cases hno

/-- An end commits. -/
lemma committed_iff (hu : σ.Unfailed) (hs : State.SparesSites r) (hm : ∀ ts m, r ≠ .missing ts m)
    (hr : x.insr.request x.timestamp = .ok r) (hout : State.Outcome o σ r es σ') :
    .committed T ∈ es ↔ T ∈ x.insr.ended? := by
  constructor
  · intro hmem
    obtain ⟨ts, rfl⟩ := hout.committed_mem hmem
    exact ended_of_request hr
  · intro hend
    have hno : .aborted T ∉ es := hout.not_aborted hu hs hm
    generalize x.insr = i at hr hend
    cases makes_of_request hr with
    | finish =>
        cases hend
        cases hout with
        | commits => exact List.mem_append_right _ (List.mem_singleton_self _)
        | commitFails => simp at hno
        | unavailable ha => cases ha
        | waitsForLock ha => cases ha
    | _ => cases hend

/-- A begin creates its transaction. -/
lemma created_iff {b : Bool} (hr : x.insr.request x.timestamp = .ok r)
    (hout : State.Outcome o σ r es σ') :
    .created T b ∈ es ↔ x.insr = if b then .beginRO T else .begin T := by
  constructor
  · intro hmem
    obtain ⟨ts, rfl⟩ := hout.created_mem hmem
    generalize x.insr = i at hr
    cases makes_of_request hr <;> rfl
  · intro hbegin
    rw [hbegin] at hr
    cases b <;>
    · cases hr
      rw [hout.create_eq]
      exact List.mem_singleton_self _

/-- No one waits after a request. -/
lemma waits_exec (h : Unhindered l σ) (hw : ¬State.Waits r es) (hout : State.Outcome o σ r es σ') :
    ∀ T, σ'.waitsFor T = [] := by
  refine hout.index_induction (P := fun σ₁ => ∀ T, σ₁.waitsFor T = []) h.waits
    (fun hs ih T => (hs.waitsFor T).trans (ih T)) (fun _ hl ih T => ?_) (fun _ _ _ _ => h.waits)
    (fun _ _ _ _ _ _ _ heq => absurd (Or.inl (heq ▸ List.mem_singleton_self _)) hw)
    (fun _ _ _ _ _ _ _ => h.waits) (fun _ _ _ _ _ _ _ _ _ => h.waits) (fun _ ih => ih)
    fun _ _ _ hrec T => ?_
  · rw [hl.waits, ih T]
    simp
  · rw [State.waitsFor, hrec.waitForGraph]
    exact h.waits T

/-- **One request** of a run without conflicts. -/
theorem exec (h : Unhindered l σ) (hg : σ.Good) (hu : σ.Unfailed)
    (hg' : σ'.Good) (hu' : σ'.Unfailed) (hx : AdmissibleNext l x) (hc : ConflictFreeNext l x)
    (hr : x.insr.request x.timestamp = .ok r) (hout : State.Outcome o σ r es σ') :
    Unhindered (l ++ [x]) σ' := by
  have hs := sparesSites hc hr
  have hm := ne_missing_of_inRange hx.inRange hr
  have hw : ¬State.Waits r es := fun hw =>
    h.not_entersQueue hg hu hc hr hm ((hout.entersQueue_iff hg).mpr hw)
  have hab : ∀ T, .aborted T ∉ es := fun T => hout.not_aborted hu hs hm
  have hcommit : ∀ T, .committed T ∈ es ↔ T ∈ x.insr.ended? := fun T =>
    committed_iff hu hs hm hr hout
  have hcreate : ∀ T b, .created T b ∈ es ↔ x.insr = if b then .beginRO T else .begin T :=
    fun T b => created_iff hr hout
  have hfresh : ∀ {T}, T ∈ x.insr.begun? → ¬Begun l T ∧ ¬Ended l T := fun {T} hT =>
    ⟨fun ⟨y, hy, hbegin⟩ => hx.begin_once T hT y hy hbegin,
      fun ⟨y, hy, hend⟩ => hx.nothing_after_end T (tranId_of_begun hT) y hy hend⟩
  have hstays : ∀ {T}, Begun l T → ¬BegunReadOnly l T → ¬BegunReadOnly (l ++ [x]) T := by
    intro T hT hro hro'
    refine (begunReadOnly_snoc.mp hro').elim hro fun heq => (hfresh (T := T) ?_).1 hT
    rw [heq]
    rfl
  refine ⟨fun T hT => ?_, h.waits_exec hw hout, fun T => ?_, fun T t ht => ?_, fun T v hl => ?_,
    fun r' hw' => ?_, fun T hmem => ?_, fun T => ?_⟩
  · rcases (hout.mem_queue.mp hT).2 with hq | ⟨-, hw'⟩
    · exact h.queue T hq
    · exact hw hw'
  · have hbegin : (∃ b, .created T b ∈ es) ↔ T ∈ x.insr.begun? := by
      simp only [hcreate]
      cases x.insr <;> simp [Instruction.begun?]
    rw [hout.mem_transactions, hbegin, hcommit, h.live, begun_snoc, ended_snoc]
    have hT := hfresh (T := T)
    have hno := hab T
    tauto
  · rcases hout.transaction ht with ⟨t₀, ht₀, hafter⟩ | ⟨ts, b, rfl, rfl⟩
    · have hT := ((h.live T).mp (Dict.mem_of_lookup ht₀)).1
      rw [hafter.isReadOnly, h.readOnly T t₀ ht₀]
      exact ⟨fun hro => begunReadOnly_snoc.mpr (Or.inl hro), not_imp_not.mp (hstays hT)⟩
    · have hinsr := (hcreate T b).mp (hout.create_eq ▸ List.mem_singleton_self _)
      rw [begunReadOnly_snoc, hinsr]
      cases b with
      | true => exact iff_of_true rfl (Or.inr rfl)
      | false =>
          refine iff_of_false Bool.false_ne_true fun hro => ?_
          rcases hro with ⟨y, hy, hbegin⟩ | heq
          · exact (hfresh (T := T) (by rw [hinsr]; rfl)).1 ⟨y, hy, by rw [hbegin]; rfl⟩
          · cases heq
  · have hlive : ∀ {T}, T ∈ σ.transactions → Begun l T := fun hT => ((h.live _).mp hT).1
    rcases hout.held hg hu hg' hu' (fun hb hT => (hfresh (begun_of_request hr hb)).1 (hlive hT)) hl
      with hl | ⟨L, hmem | ⟨z, hmem⟩⟩
    · obtain ⟨hro, y, hy, hacc⟩ := h.locks T v hl
      have hT : T ∈ σ.transactions := by
        by_contra hdead
        exact hg.not_holdsLock hdead hl
      exact ⟨hstays (hlive hT) hro, y, List.mem_append_left _ hy, hacc⟩
    · obtain ⟨t, ht, hro⟩ := hout.not_readOnly hmem
      obtain ⟨ts, rfl⟩ := hout.sharedLock_mem hmem
      refine ⟨hstays (hlive (Dict.mem_of_lookup ht)) ?_, x, by simp, access_of_request hr rfl⟩
      rw [← h.readOnly T t ht, hro]
      exact Bool.false_ne_true
    · obtain ⟨ts, rfl⟩ := hout.writeLock_mem hmem
      refine ⟨hstays (hlive (h.live_of_next hx hc (Or.inl ?_))) (not_readOnly hc hr), x, by simp,
        access_of_request hr rfl⟩
      rw [insr_of_write hr]
      rfl
  · rw [hout.trace] at hw'
    have hsplit : State.Waits r' σ.trace ∨ State.Waits r' es := by
      simpa [State.Waits, or_or_or_comm] using hw'
    rcases hsplit with hold' | hnew
    · exact h.granted r' hold'
    · exact hw ((hout.waits hnew).1 ▸ hnew)
  · rw [hout.trace, List.mem_append] at hmem
    exact hmem.elim (h.spared T) (hab T)
  · rw [hout.trace, List.mem_append, h.committed, hcommit, ended_snoc]

/-- The request is not dropped. -/
lemma isStale_eq_false (h : Unhindered l σ) (hx : AdmissibleNext l x) (hc : ConflictFreeNext l x)
    (hr : x.insr.request x.timestamp = .ok r) : σ.isStale r = false := by
  have hlive : r.transactionId = -1 ∨ r.transactionId ∈ σ.transactions ∨ r.isBegin = true := by
    cases r with
    | write ts T v z =>
        refine Or.inr (Or.inl (h.live_of_next hx hc (Or.inl ?_)))
        rw [insr_of_write hr]
        rfl
    | read ts T v =>
        refine Or.inr (Or.inl (h.live_of_next hx hc (Or.inl ?_)))
        rw [insr_of_read hr]
        rfl
    | finish ts T =>
        refine Or.inr (Or.inl (h.live_of_next hx hc (Or.inr ?_)))
        rw [insr_of_finish hr]
        rfl
    | create => exact Or.inr (Or.inr rfl)
    | missing ts m => exact absurd rfl (ne_missing_of_inRange hx.inRange hr ts m)
    | _ => exact Or.inl rfl
  rw [State.isStale]
  rcases hlive with hl | hl | hl <;> simp [hl]

/-- The request does not wait with its transaction. -/
lemma isBlocked_eq_false (h : Unhindered l σ) (hu : σ.Unfailed) (T : TranId) :
    σ.isBlocked T = false := by
  simp [State.isBlocked, State.isWaitingForLock, State.isTransactionWaitingForSite, h.waits,
    h.queue, hu.site]

end Unhindered

/-- Every known instruction becomes a request. -/
lemma exists_request {insr : Instruction} (h : insr.inRange = true) (ts : Timestamp) :
    ∃ r, insr.request ts = .ok r := by
  cases insr with
  | unknown => cases h
  | read | write | recover | fail =>
      rw [Instruction.request]
      split
      · exact ⟨_, rfl⟩
      · exact ⟨_, rfl⟩
  | _ => exact ⟨_, rfl⟩

section Runs

variable {l : List Feed} {x : Feed} {σ : State}

lemma ConflictFree.exists_next (hc : ConflictFree l) {y : Feed} (hy : y ∈ l) :
    ∃ past, ConflictFreeNext past y := by
  induction l using List.reverseRecOn with
  | nil => cases hy
  | append_singleton l x ih =>
      obtain ⟨hl, hx⟩ := (conflictFree_snoc l x).mp hc
      rcases List.mem_append.mp hy with hy | hy
      · exact ih hl hy
      · exact ⟨l, List.mem_singleton.mp hy ▸ hx⟩

lemma ConflictFree.not_fails (hc : ConflictFree l) : ∀ y ∈ l, ∀ s, y.insr ≠ .fail s := by
  intro y hy s heq
  obtain ⟨past, hnext⟩ := hc.exists_next hy
  have hno := hnext.not_fails
  rw [heq] at hno
  cases hno

/-- The instruction is executed at once: the request `r` in the state `τ`, with the entries `es` and
the state `σ₁` after it. -/
structure ExecutedAtOnce (l : List Feed) (x : Feed) (σ : State) (r : Request) (τ : State)
    (es : List Event) (σ₁ σ' : State) : Prop where
  request : x.insr.request x.timestamp = .ok r
  outcome : State.Outcome (x.schedule.exec r.timestamp) τ r es σ₁
  serves : Serves l (l ++ [x]) r τ
  reached : State.Reached l τ
  unhindered : Unhindered l τ
  unfailed : τ.Unfailed
  before : ∃ g, τ = { σ with request := some r, waitForGraph := g }
  after : σ' = { σ₁ with request := none }

/-- **One instruction** of a run without conflicts is executed at once. -/
theorem feed_unhindered (ha : Admissible (l ++ [x])) (hc : ConflictFree (l ++ [x]))
    (hrun : run l = .ok σ) (h : Unhindered l σ) :
    ∃ r τ es σ₁ σ', ExecutedAtOnce l x σ r τ es σ₁ σ' ∧ run (l ++ [x]) = .ok σ' ∧
      Unhindered (l ++ [x]) σ' := by
  obtain ⟨ha', hx⟩ := (admissible_snoc l x).mp ha
  obtain ⟨hc', hcx⟩ := (conflictFree_snoc l x).mp hc
  obtain ⟨r, hr⟩ := exists_request hx.inRange x.timestamp
  obtain ⟨g, hτ, hw⟩ := State.resolved_of_waitsFor (σ := { σ with request := some r }) h.waits
    x.schedule
  set τ : State := { σ with request := some r, waitForGraph := g } with hτ'
  have hU : Unhindered l τ := ⟨h.queue, hw, h.live, h.readOnly, h.locks, h.granted, h.spared,
    h.committed⟩
  have hR := reached_reaches ha' (.run hrun)
  have hRτ : State.Reached l τ := by
    have hk := (State.Reached.kept (C := fun _ _ => True) (l := l)).toSettled
    exact hk.graph (hk.request hR) fun T => (hw T).trans (h.waits T).symm
  have hu : τ.Unfailed := (unfailed_invariant.reaches ha'
    (fun _ _ => sparesSites_of_called hc'.not_fails) (.run hrun)).congr rfl rfl
      fun T => (hw T).trans (h.waits T).symm
  have hS : State.Stamped l τ := (stamped_invariant fun _ _ => True).congr
    ((stamped_invariant fun _ _ => True).reaches ha' (by simp) (.run hrun)) rfl rfl rfl
  obtain ⟨σ₁, h1⟩ := hU.exists_exec hRτ.good hS hx hcx hr (x.schedule.exec r.timestamp)
  obtain ⟨es, hout⟩ := State.exec_outcome h1
  have hfresh : r.isBegin = true → r.transactionId ∉ τ.transactions := fun hb hT =>
    absurd ((hU.live _).mp hT).1 fun ⟨y, hy, hbegin⟩ =>
      hx.begin_once _ (begun_of_request hr hb) y hy hbegin
  have hg₁ := (hout.simulates_of_fresh hRτ.good hfresh).good hRτ.good
  have hu₁ := hu.exec hRτ.good (Unhindered.sparesSites hcx hr)
    (ne_missing_of_inRange hx.inRange hr) hfresh hout
  have hU₁ := hU.exec hRτ.good hu hg₁ hu₁ hx hcx hr hout
  have hst := hU.isStale_eq_false hx hcx hr
  have hb := hU.isBlocked_eq_false hu r.transactionId
  have hfree : τ.isBlocked r.transactionId = true → r.isReadWrite = true := fun hbl =>
    absurd (hb.symm.trans hbl) Bool.false_ne_true
  have hstart : State.WalkStarts x.schedule { σ with request := some r } σ₁ :=
    Or.inr ⟨r, τ, ⟨hτ, rfl, hst, hfree⟩, hb, h1⟩
  have hq : σ₁.blockedTransactionsQueue.keys = [] := List.eq_nil_iff_forall_not_mem.mpr
    fun T hT => hU₁.queue T (AList.mem_keys.mpr hT)
  refine ⟨r, τ, es, σ₁, { σ₁ with request := none },
    ⟨hr, hout, .pending hx hr hst hfree, hRτ, hU, hu, ⟨g, rfl⟩, rfl⟩, ?_, ?_⟩
  · rw [run_snoc, hrun, ok_bind, feed_eq_ok]
    exact ⟨r, hr, (State.executeInstructions_of_walkStarts hstart).trans
      (State.serveBlocked_of_empty hq)⟩
  · exact ⟨hU₁.queue, hU₁.waits, hU₁.live, hU₁.readOnly, hU₁.locks, hU₁.granted, hU₁.spared,
      hU₁.committed⟩

lemma unhindered_initial : Unhindered [] State.initial := by
  constructor
  case locks =>
    rintro T v ⟨s, -, -, hl⟩
    simp [State.initial, State.getVariable, Site.initial, Variable.initial, Variable.hasSharedLock,
      Variable.hasExclusiveLock] at hl
  all_goals simp [State.initial, State.waitsFor, State.Waits, Begun, Ended]

/-- The induction over the instructions of a run without conflicts. -/
theorem run_unhindered {Q : List Feed → State → Prop} (hinit : Q [] State.initial)
    (hstep : ∀ {l x σ r τ es σ₁ σ'}, Admissible (l ++ [x]) → ConflictFree (l ++ [x]) →
      run l = .ok σ → ExecutedAtOnce l x σ r τ es σ₁ σ' → Q l σ → Q (l ++ [x]) σ')
    (ha : Admissible l) (hc : ConflictFree l) :
    ∃ σ, run l = .ok σ ∧ Unhindered l σ ∧ Q l σ := by
  induction l using List.reverseRecOn with
  | nil => exact ⟨State.initial, rfl, unhindered_initial, hinit⟩
  | append_singleton l x ih =>
      obtain ⟨hc', -⟩ := (conflictFree_snoc l x).mp hc
      obtain ⟨σ, hrun, hU, hQ⟩ := ih ((admissible_snoc l x).mp ha).1 hc'
      obtain ⟨r, τ, es, σ₁, σ', hx, hrun', hU'⟩ := feed_unhindered ha hc hrun hU
      exact ⟨σ', hrun', hU', hstep ha hc hrun hx hQ⟩

/-- **Runs without conflicts.** The run succeeds; nothing waits, nothing is aborted, and the
transactions that have committed are those that were ended. -/
theorem conflict_free_run (ha : Admissible l) (hc : ConflictFree l) :
    ∃ σ, run l = .ok σ ∧ (∀ T, T ∉ σ.blockedTransactionsQueue) ∧
      (∀ r, .waitsForLock r ∉ σ.trace ∧ .waitsForSite r ∉ σ.trace) ∧
      (∀ T, .aborted T ∉ σ.trace) ∧ (∀ T, .committed T ∈ σ.trace ↔ Ended l T) ∧
      ∀ T, T ∈ σ.transactions ↔ Begun l T ∧ ¬Ended l T := by
  obtain ⟨σ, hrun, h, -⟩ := run_unhindered (Q := fun _ _ => True) trivial
    (fun _ _ _ _ _ => trivial) ha hc
  exact ⟨σ, hrun, h.queue, fun r => not_or.mp (h.granted r), h.spared, h.committed, h.live⟩

/-- Two transactions at a time, a read-only one between them, and a variable that is accessed again
after the end of a transaction. -/
def conflictFreeInstructions : List Instruction :=
  [.begin 1, .begin 2, .read 1 2, .write 1 2 7, .write 2 1 5, .beginRO 3, .read 3 2, .finish 1,
    .read 2 2, .write 2 4 8, .read 3 4, .finish 3, .recover 2, .finish 2, .begin 4, .write 4 2 9]

theorem conflict_free_run_instructions : ∃ σ,
    run (inOrder Schedule.stored conflictFreeInstructions) = .ok σ ∧
      (∀ T, T ∉ σ.blockedTransactionsQueue) ∧ .committed 2 ∈ σ.trace ∧ 4 ∈ σ.transactions := by
  obtain ⟨σ, hrun, hq, -, -, hcommit, hlive⟩ := conflict_free_run
    (l := inOrder Schedule.stored conflictFreeInstructions) (by decide +kernel) (by decide +kernel)
  exact ⟨σ, hrun, hq, (hcommit 2).mpr (by decide +kernel), (hlive 4).mpr (by decide +kernel)⟩

end Runs

end RepCRec
