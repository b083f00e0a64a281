import RepCRec.Engine.OpenRun
import RepCRec.Guarantees.Deadlocks

/-!
The two indexes of live transactions, in runs of any instructions whose timestamps increase. They
agree (`IndexesAgree`) as long as no begin is executed for a live transaction, and every round of
the loop that resolves deadlocks then takes the youngest live transaction from both
(`indexes_agree`).

Transactions that are not live may wait for others in such runs. Their edges close no cycle
(`Registered.dead`): a new edge ends in a live transaction, and this one waits for nobody when it
ends.
-/

namespace RepCRec

open Container (IterOrder SortedByKey Acyclic)

/-- The timestamps increase. -/
def Ascending (l : List Feed) : Prop := SortedByKey Feed.timestamp l

instance (l : List Feed) : Decidable (Ascending l) :=
  inferInstanceAs (Decidable (List.Pairwise _ l))

/-- A timestamp is that of one begin. -/
lemma Ascending.eq_of_create {l : List Feed} (ho : Ascending l) {k : Timestamp} {T T' : TranId}
    {b b' : Bool} (h : Fed l (.create k T b)) (h' : Fed l (.create k T' b')) : T = T' := by
  obtain ⟨x, hx, hr⟩ := h
  obtain ⟨y, hy, hr'⟩ := h'
  have hxk : k = x.timestamp := timestamp_of_request hr
  have hyk : k = y.timestamp := timestamp_of_request hr'
  have hxy : x = y := ho.eq_of_key hx hy (hxk.symm.trans hyk)
  rw [hxy, hr'] at hr
  cases hr
  rfl

namespace State

variable {l : List Feed} {σ σ' ρ : State} {o : IterOrder} {r : Request} {es : List Event}
  {T : TranId} {Ts : List TranId}

/-- The set of live transactions lists those of the index, each of them once, the youngest first. -/
structure IndexesAgree (σ : State) : Prop where
  mem : ∀ ref : TransactionRef, ref ∈ σ.transactionsSet ↔
    σ.beganAt ref.transactionId = some ref.timestamp
  sorted : SortedByKey (fun ref : TransactionRef => -ref.timestamp) σ.transactionsSet

/-- An edge between transactions that are not live. -/
def DeadEdge (σ : State) (T T' : TranId) : Prop :=
  σ.WaitsFor T T' ∧ T ∉ σ.transactions ∧ T' ∉ σ.transactions

/-- What is known of the indexes when the instructions `l` begin no live transaction. -/
structure Registered (l : List Feed) (σ : State) : Prop where
  listed : Listed l σ
  began : ∀ {T k}, σ.beganAt T = some k → ∃ b, Fed l (.create k T b)
  dead : Acyclic σ.DeadEdge

namespace Registered

lemma agree (h : Registered l σ) : σ.IndexesAgree := ⟨fun _ => h.listed.mem, h.listed.sorted⟩

lemma congr (h : Registered l σ) (hb : ∀ T, σ'.beganAt T = σ.beganAt T)
    (hs : σ'.transactionsSet = σ.transactionsSet) (hw : ∀ T, σ'.waitsFor T = σ.waitsFor T) :
    Registered l σ' where
  listed := h.listed.congr hb hs
  began hT := h.began (hb _ ▸ hT)
  dead := by
    refine h.dead.mono ?_
    rintro T T' ⟨hedge, hT, hT'⟩
    rw [WaitsFor, hw] at hedge
    rw [← isSome_beganAt, hb, isSome_beganAt] at hT hT'
    exact ⟨hedge, hT, hT'⟩

lemma left (h : Registered l σ) (hg : Left T σ σ') : Registered l σ' where
  listed := h.listed.left hg
  began hT := by
    rw [hg.beganAt] at hT
    split_ifs at hT
    exact h.began hT
  dead := by
    refine h.dead.add_sink (c := T) ?_ ?_
    · rintro T' ⟨hedge, -⟩
      exact (hg.subset_waitsFor hedge).2 rfl
    · rintro T₁ T₂ ⟨hedge, hdead₁, hdead₂⟩ hne
      obtain ⟨hold, hne₁⟩ := hg.subset_waitsFor hedge
      exact ⟨hold, fun hT => hdead₁ (hg.mem_transactions.mpr ⟨hT, hne₁⟩),
        fun hT => hdead₂ (hg.mem_transactions.mpr ⟨hT, hne⟩)⟩

/-- A begin of a transaction that is not live. -/
lemma create (h : Registered l σ) (ho : Ascending l) {ts : Timestamp} {b : Bool}
    (hfed : Fed l (.create ts T b)) (hT : T ∉ σ.transactions) :
    Registered l (σ.execCreate ts T b) where
  listed := by
    refine h.listed.create_of_ne b hT ?_ hfed id
    rintro T' k hk rfl
    obtain ⟨b', hfed'⟩ := h.began hk
    rw [ho.eq_of_create hfed hfed', ← isSome_beganAt, hk] at hT
    exact hT rfl
  began {T' k} hT' := by
    rw [Listed.beganAt_execCreate] at hT'
    split_ifs at hT' with heq
    · cases hT'
      exact ⟨b, heq ▸ hfed⟩
    · exact h.began hT'
  dead := by
    have hlive : ∀ {T'}, T' ∉ (σ.execCreate ts T b).transactions → T' ∉ σ.transactions :=
      fun hdead hT' => hdead ((AList.mem_insert _).mpr (Or.inr hT'))
    refine h.dead.mono ?_
    rintro T₁ T₂ ⟨hedge, h₁, h₂⟩
    exact ⟨hedge, hlive h₁, hlive h₂⟩

/-- The owners of a lock are live. -/
lemma lock (h : Registered l σ) (hg : σ.Good) (v : VarId) (s : SiteId) :
    Registered l (σ.assignWaitForGraph o T (waitOwners (σ.getVariable s v) T)) where
  listed := h.listed.congr (fun _ => rfl) rfl
  began := h.began
  dead := by
    refine h.dead.mono ?_
    rintro T₁ T₂ ⟨hedge, h₁, h₂⟩
    rcases mem_assignWaitForGraph.mp hedge with hold | ⟨-, hown⟩
    · exact ⟨hold, h₁, h₂⟩
    · rcases mem_waitOwners hown with ⟨hx, -⟩ | hsh
      · exact absurd (hg.inv.excl_live (T := T₂) (s := s) (v := v) hx) h₂
      · exact absurd (hg.inv.shared_live (T := T₂) (s := s) (v := v) hsh) h₂

lemma exec (h : Registered l σ) (ho : Ascending l) (hg : σ.Good) (hr : Fed l r)
    (hfresh : r.isBegin = true → r.transactionId ∉ σ.transactions) (hout : Outcome o σ r es σ') :
    Registered l σ' := by
  refine hout.index_induction h (fun hs h => h.congr hs.beganAt hs.transactionsSet hs.waitsFor)
    (fun _ hl h => h.left hl) (fun ts T b heq => ?_) (fun T v s _ _ _ _ _ => h.lock hg v s)
    (fun _ _ _ _ _ _ _ => ?_) (fun _ _ _ _ _ _ _ _ _ => ?_) (fun _ h => ?_) fun _ _ _ hrec => ?_
  · subst heq
    exact h.create ho hr (hfresh rfl)
  · exact h.congr (fun _ => rfl) rfl fun _ => rfl
  · exact h.congr (fun _ => rfl) rfl fun _ => rfl
  · exact h.congr (fun _ => rfl) rfl fun _ => rfl
  · refine h.congr (fun T => ?_) hrec.transactionsSet fun T => ?_
    · rw [beganAt, hrec.transactions, beganAt]
    · rw [waitsFor, hrec.waitForGraph, waitsFor]

/-- On a cycle there is a live transaction. -/
lemma exists_live (h : Registered l σ) (hc : ¬Acyclic σ.WaitsFor) : ∃ T, T ∈ σ.transactions := by
  by_contra hno
  rw [not_exists] at hno
  exact hc (h.dead.mono fun {T T'} hedge => ⟨hedge, hno T, hno T'⟩)

/-- A round of the loop that resolves deadlocks. -/
lemma round (h : Registered l σ) (hd : σ.detectDeadlock o = some (true, ρ)) :
    Registered l ρ ∧ ∃ ref rest σ', ρ.transactionsSet = ref :: rest ∧
      ref.transactionId ∈ ρ.transactions ∧ ρ.abortTransaction o ref.transactionId = .ok σ' ∧
      σ'.transactionsSet = rest := by
  obtain ⟨⟨g, rfl⟩, hw⟩ := detectDeadlock_spec hd
  have hρ : Registered l { σ with waitForGraph := g } := h.congr (fun _ => rfl) rfl hw
  obtain ⟨b, ρ', hd', hb⟩ := detectDeadlock_iff σ o
  rw [hd] at hd'
  cases hd'
  obtain ⟨T, hT⟩ := h.exists_live (hb.mp rfl)
  exact ⟨hρ, hρ.listed.exists_victim hT o⟩

lemma rounds (h : Registered l σ) (hr : Rounds o Ts σ σ') : Registered l σ' := by
  induction hr with
  | nil => exact h
  | cons hd _ hab _ ih => exact ih ((h.round hd).1.left (left_abortTransaction hab))

end Registered

/-- The begins that are executed are of transactions that are not live. -/
def BeginsFresh (r : Request) (σ : State) : Prop :=
  r.isBegin = true → r.transactionId ∉ σ.transactions

instance (r : Request) (σ : State) : Decidable (σ.BeginsFresh r) :=
  inferInstanceAs (Decidable (_ → _))

end State

/-- The indexes, with what their invariant needs. -/
structure State.Registering (l : List Feed) (σ : State) : Prop where
  good : σ.Good
  queued : σ.QueuedFrom l
  registered : σ.Registered l

namespace State.Registering

variable {l : List Feed}

lemma kept (ho : Ascending l) : State.Kept State.BeginsFresh (State.Registering l) (Fed l) where
  graph h hw := ⟨h.good.congr rfl rfl rfl rfl,
    h.queued, h.registered.congr (fun _ => rfl) rfl hw⟩
  abort h ha := ⟨(State.simulates_abortTransaction h.good ha).good h.good,
    (State.QueuedFrom.kept (C := fun _ _ => True)).abort h.queued ha,
    h.registered.left (State.left_abortTransaction ha)⟩
  request h := ⟨h.good.congr rfl rfl rfl rfl,
    h.queued, h.registered.congr (fun _ => rfl) rfl fun _ => rfl⟩
  queued h hl hr := h.queued _ _ _ hl hr
  exec h hr hfresh hx := by
    obtain ⟨es, hout⟩ := State.exec_outcome hx
    exact ⟨(hout.simulates_of_fresh h.good hfresh).good h.good,
      (State.QueuedFrom.kept (C := fun _ _ => True)).exec h.queued hr trivial hx,
      h.registered.exec ho h.good hr hfresh hout⟩
  dequeue h := ⟨h.good.congr rfl rfl rfl rfl,
    (State.QueuedFrom.kept (C := fun _ _ => True)).dequeue h.queued,
    h.registered.congr (fun _ => rfl) rfl fun _ => rfl⟩

end State.Registering

lemma State.registered_initial (l : List Feed) : State.initial.Registered l where
  listed := (listed_invariant fun _ _ => True).initial.mono fun hr => by
    obtain ⟨x, hx, -⟩ := hr
    cases hx
  began hT := by simp [State.initial, State.beganAt] at hT
  dead := by
    intro T hc
    obtain ⟨T', ⟨hedge, -⟩, -⟩ := Relation.TransGen.head'_iff.mp hc
    simp [State.WaitsFor, State.initial, State.waitsFor] at hedge

/-- The rule for runs that begin no live transaction. -/
lemma runRule_registering {l : List Feed} (ho : Ascending l) : RunRule State.BeginsFresh
    (State.Registering l) (fun r τ => τ.Registering l ∧ Fed l r) fun x _ => x ∈ l := by
  refine (State.Registering.kept ho).runRule ?_ (fun hx hr => ⟨_, hx, hr⟩) fun h hr => ?_
  · refine ⟨State.good_initial, fun T rs r h => ?_, State.registered_initial l⟩
    cases h
  · exact ⟨h.good.congr rfl rfl rfl rfl, (State.queuedFrom_iff.mp h.queued).enqueue hr,
      h.registered.congr (fun _ => rfl) rfl fun _ => rfl⟩

section Runs

variable {l : List Feed}

/-- **The indexes of live transactions agree** in every state, and every round of the loop that
resolves deadlocks finds the youngest live transaction and removes it from both, when no begin is
executed for a live transaction. -/
theorem indexes_agree (ho : Ascending l) (hfresh : ∀ r τ, CalledDuring l r τ → τ.BeginsFresh r) :
    (∀ σ, Meets l σ → σ.IndexesAgree) ∧
    ∀ sch σ Ts σ₁ ρ, CallOf l sch σ → State.Rounds sch.detect Ts σ σ₁ →
      σ₁.detectDeadlock sch.detect = some (true, ρ) →
      ∃ ref rest σ₂, ρ.transactionsSet = ref :: rest ∧ ref.transactionId ∈ ρ.transactions ∧
        (∀ T k, ρ.beganAt T = some k → k ≤ ref.timestamp) ∧
        ρ.abortTransaction sch.detect ref.transactionId = .ok σ₂ ∧ σ₂.transactionsSet = rest ∧
        ∀ T, T ∈ σ₂.transactions ↔ T ∈ ρ.transactions ∧ T ≠ ref.transactionId := by
  have hrule := runRule_registering ho
  constructor
  · rintro σ (hr | ⟨r, hc⟩)
    · exact (hrule.reaches (fedUnder_mem l) hfresh hr).1.registered.agree
    · exact (hrule.called And.left (fedUnder_mem l) hfresh hc).registered.agree
  · intro sch σ Ts σ₁ ρ hc hr hd
    have h := (hrule.callOf (fedUnder_mem l) hfresh hc).registered.rounds hr
    obtain ⟨hρ, ref, rest, σ₂, hs, hlive, hab, hs₂⟩ := h.round hd
    exact ⟨ref, rest, σ₂, hs, hlive, fun T k hk => (hρ.listed.first hs).2 hk, hab, hs₂,
      fun T => (State.left_abortTransaction hab).mem_transactions⟩

theorem indexes_agree_deadlockRun : Ascending deadlockRun ∧
    (∀ σ, Meets deadlockRun σ → σ.IndexesAgree) ∧
    ∃ σ ρ ref rest, CallOf deadlockRun Schedule.stored σ ∧
      σ.detectDeadlock IterOrder.stored = some (true, ρ) ∧ ρ.transactionsSet = ref :: rest ∧
      ref.transactionId ∈ ρ.transactions := by
  have ho : Ascending deadlockRun := by decide
  obtain ⟨-, hdirect, htaken⟩ := forall_of_feedCalls (l := deadlockRun) (D := fun _ _ => True)
    (A := fun r τ => τ.BeginsFresh r) (C := fun r τ => τ.BeginsFresh r) (by decide +kernel)
    (by decide +kernel)
  obtain ⟨hagree, hround⟩ := indexes_agree ho fun r τ hc => hc.cases.elim (hdirect r τ) (htaken r τ)
  obtain ⟨p, hp, hf⟩ := exists_ok_of_eval
    (x := feedCall (deadlockRun.take 7) ⟨.begin 4, 7, Schedule.stored⟩)
    (f := fun p : State × State => (p.1.detectDeadlock IterOrder.stored).map Prod.fst)
    (a := some true) (by decide +kernel)
  obtain ⟨⟨b, ρ⟩, hd, rfl⟩ := Option.map_eq_some_iff.mp hf
  obtain ⟨hc, -⟩ := callOf_of_feedCall [] hp
  obtain ⟨ref, rest, σ₂, hs, hlive, -⟩ := hround _ p.1 [] p.1 ρ hc .nil hd
  exact ⟨ho, hagree, p.1, ρ, ref, rest, hc, hd, hs, hlive⟩

/-- A transaction that is not live writes a variable that does not exist, another one reads one, and
so does a read-only one. -/
def strayRun : List Feed :=
  inOrder Schedule.stored [.begin 1, .write 9 99 1, .read 1 21, .beginRO 2, .read 2 22]

-- the write is dropped, the read of the odd variable waits, that of the even one aborts its reader
example : (run strayRun).toOption.map (fun σ =>
    (σ.transactionsSet, σ.siteWaitingMap.lookup 1, decide (.aborted 2 ∈ σ.trace))) =
      some ([⟨0, 1⟩], some ⟨2, by decide, by decide⟩, true) := by
  decide +kernel

/-- A transaction is begun twice, and then two others wait for each other. -/
def danglingRun : List Feed :=
  inOrder Schedule.stored [.begin 1, .begin 3, .begin 2, .begin 2, .write 1 2 5, .write 3 4 6,
    .write 1 4 7, .write 3 2 8, .dump]

/-- **A begin of a live transaction** leaves its old entry in the set. The loop that resolves
deadlocks comes to it after it has aborted the transaction, which cannot be found then. -/
theorem dangling_entry : Ascending danglingRun ∧
    (∃ σ, Reaches (danglingRun.take 4) σ ∧ ⟨2, 2⟩ ∈ σ.transactionsSet ∧ σ.beganAt 2 = some 3 ∧
      ¬σ.IndexesAgree) ∧
    ∃ σ σ₁ ρ rest, CallOf danglingRun Schedule.stored σ ∧
      State.Rounds IterOrder.stored [2] σ σ₁ ∧
      σ₁.detectDeadlock IterOrder.stored = some (true, ρ) ∧ ρ.transactionsSet = ⟨2, 2⟩ :: rest ∧
      2 ∉ ρ.transactions ∧ ρ.abortTransaction IterOrder.stored 2 = .error .nullPointer := by
  refine ⟨by decide, ?_, ?_⟩
  · obtain ⟨σ, hr, hf⟩ := exists_ok_of_eval (x := run (danglingRun.take 4))
      (f := fun σ => decide (⟨2, 2⟩ ∈ σ.transactionsSet ∧ σ.beganAt 2 = some 3)) (a := true)
      (by decide +kernel)
    obtain ⟨hmem, hbegan⟩ := of_decide_eq_true hf
    refine ⟨σ, .run hr, hmem, hbegan, fun h => ?_⟩
    have hold : σ.beganAt 2 = some 2 := (h.mem _).mp hmem
    rw [hbegan] at hold
    simp at hold
  · obtain ⟨σ₀, hr, hf⟩ := exists_ok_of_eval (x := run (danglingRun.take 8))
      (f := fun σ =>
        (State.detectDeadlock IterOrder.stored { σ with request := some (.dump 8) }).any
          fun p : Bool × State => p.1 && p.2.transactionsSet.head? == some ⟨3, 2⟩ &&
          (p.2.abortTransaction IterOrder.stored 2).toOption.any fun σ₁ : State =>
            (σ₁.detectDeadlock IterOrder.stored).any fun q : Bool × State =>
              q.1 && q.2.transactionsSet.head? == some ⟨2, 2⟩ && decide (2 ∉ q.2.transactions))
      (a := true) (by decide +kernel)
    obtain ⟨⟨b, ρ₀⟩, hd, hf⟩ := (Option.any_eq_true _ _).mp hf
    simp only [Bool.and_eq_true, beq_iff_eq] at hf
    obtain ⟨⟨rfl, hhead₀⟩, hf⟩ := hf
    obtain ⟨rest₀, hs₀⟩ := List.head?_eq_some_iff.mp hhead₀
    obtain ⟨_, hsome, hf⟩ := (Option.any_eq_true _ _).mp hf
    obtain ⟨σ₁, hab, rfl⟩ := exists_ok_of_eval (x := ρ₀.abortTransaction IterOrder.stored 2)
      (f := id) (by rw [hsome]; rfl)
    obtain ⟨⟨b, ρ⟩, hd₁, hf⟩ := (Option.any_eq_true _ _).mp hf
    simp only [Bool.and_eq_true, beq_iff_eq, decide_eq_true_iff] at hf
    obtain ⟨⟨rfl, hhead⟩, hdead⟩ := hf
    obtain ⟨rest, hs⟩ := List.head?_eq_some_iff.mp hhead
    refine ⟨{ σ₀ with request := some (.dump 8) }, σ₁, ρ, _,
      Or.inl ⟨danglingRun.take 8, ⟨.dump, 8, Schedule.stored⟩, [], σ₀, .dump 8, rfl, hr, rfl, rfl,
        rfl⟩,
      .cons hd hs₀ hab .nil, hd₁, hs, hdead, ?_⟩
    rw [State.abortTransaction, State.evictTransaction, AList.lookup_eq_none.mpr hdead, hs]
    rfl

end Runs

end RepCRec
