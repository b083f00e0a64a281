import RepCRec.Engine.Progress
import RepCRec.Guarantees.Replication
import RepCRec.Refinement.Register

/-!
The search for a deadlock returns in every wait-for graph, and answers whether there is a cycle
(`deadlock_detected_iff`).

The loop that resolves deadlocks. Each of its rounds aborts one live transaction, and when it ends,
after at most as many rounds as there are live transactions, the wait-for graph has no cycle
(`deadlocks_resolved`). The victim of a round is the live transaction that was begun last
(`youngest_sacrificed`), which need not wait for anybody (`bystander_sacrificed`).
-/

namespace RepCRec

open Container (IterOrder Acyclic)
open Relation (TransGen)

namespace State

variable {σ σ' σ₁ ρ : State} {o : IterOrder} {T : TranId} {l : List Feed} {Ts : List TranId}

/-- **Deadlock detection is exact.** In every wait-for graph and for all orders of its entries and
their targets, the search ends, it answers whether there is a cycle of edges, and it changes nothing
but to add entries without targets. -/
theorem deadlock_detected_iff (σ : State) (o : IterOrder) :
    ∃ b σ', σ.detectDeadlock o = some (b, σ') ∧ (b = true ↔ ∃ T, TransGen σ.WaitsFor T T) ∧
      (∀ T T', σ'.WaitsFor T T' ↔ σ.WaitsFor T T') ∧
      (∃ g, σ' = { σ with waitForGraph := g }) ∧
      ∀ T, σ'.waitForGraph.lookup T = σ.waitForGraph.lookup T ∨
        (σ.waitForGraph.lookup T = none ∧ σ'.waitForGraph.lookup T = some []) := by
  obtain ⟨b, σ', hd, hb⟩ := detectDeadlock_iff σ o
  refine ⟨b, σ', hd, hb.trans ?_, fun T T' => ?_, (detectDeadlock_spec hd).1,
    lookup_detectDeadlock hd⟩
  · rw [Acyclic, not_forall]
    exact exists_congr fun T => not_not
  · rw [waitsFor_detectDeadlock hd]

/-- A cycle through a target that has no entry of its own is none, and a self-edge is one. -/
example : ((State.initial.assignWaitForGraph IterOrder.stored 1 [2]).detectDeadlock
      IterOrder.reversed).map Prod.fst = some false ∧
    ((State.initial.assignWaitForGraph IterOrder.stored 1 [1]).detectDeadlock
      IterOrder.reversed).map Prod.fst = some true := by decide +kernel

/-! ### The loop -/

/-- The first rounds of the loop, which abort the transactions in the list. -/
inductive Rounds (o : IterOrder) : List TranId → State → State → Prop where
  | nil {σ : State} : Rounds o [] σ σ
  | cons {σ ρ σ₁ σ' : State} {ref : TransactionRef} {rest : List TransactionRef}
      {Ts : List TranId} :
      σ.detectDeadlock o = some (true, ρ) →
      ρ.transactionsSet = ref :: rest → ρ.abortTransaction o ref.transactionId = .ok σ₁ →
      Rounds o Ts σ₁ σ' → Rounds o (ref.transactionId :: Ts) σ σ'

/-- On a cycle there is a live transaction. -/
lemma Linked.exists_live (h : Linked σ) (hc : ¬Acyclic σ.WaitsFor) : ∃ T, T ∈ σ.transactions := by
  obtain ⟨T, hT⟩ := not_forall.mp hc
  obtain ⟨T', hTT', hT'⟩ := Relation.TransGen.head'_iff.mp (not_not.mp hT)
  rcases h.live (List.ne_nil_of_mem hTT') with rfl | hlive
  · rcases Relation.ReflTransGen.cases_head hT' with rfl | ⟨T'', hT'', -⟩
    · -- the id that stands for no transaction waits for itself
      exact ⟨-1, not_not.mp fun hdead => h.not_self hdead hTT'⟩
    · rcases h.live (List.ne_nil_of_mem hT'') with rfl | hlive
      · exact ⟨-1, not_not.mp fun hdead => h.not_self hdead hTT'⟩
      · exact ⟨T', hlive⟩
  · exact ⟨T, hlive⟩

lemma length_keys_of_left (hg : Left T σ σ') (hT : T ∈ σ.transactions) :
    σ'.transactions.keys.length + 1 = σ.transactions.keys.length := by
  have hperm : σ'.transactions.keys.Perm (σ.transactions.keys.erase T) := by
    refine (List.perm_ext_iff_of_nodup (AList.keys_nodup _) ((AList.keys_nodup _).erase T)).mpr
      fun T' => ?_
    rw [(AList.keys_nodup _).mem_erase_iff, ← AList.mem_keys, ← AList.mem_keys,
      hg.mem_transactions, and_comm]
  have hmem : T ∈ σ.transactions.keys := AList.mem_keys.mp hT
  have hpos := List.length_pos_of_mem hmem
  rw [hperm.length_eq, List.length_erase_of_mem hmem]
  omega

/-- What holds in the loop. -/
structure Resolving (l : List Feed) (σ : State) : Prop where
  reached : Reached l σ
  listed : Listed l σ
  linked : Linked σ

namespace Resolving

lemma detect (h : Resolving l σ) {b : Bool} (hd : σ.detectDeadlock o = some (b, ρ)) :
    Resolving l ρ ∧ ρ.transactions = σ.transactions := by
  have hk : Settled (Reached l) := (Reached.kept (C := fun _ _ => True)).toSettled
  obtain ⟨⟨g, rfl⟩, hw⟩ := detectDeadlock_spec hd
  exact ⟨⟨hk.graph h.reached hw, h.listed.congr (fun _ => rfl) rfl,
    h.linked.congr hw fun _ => id⟩, rfl⟩

lemma abort (h : Resolving l σ) (ha : σ.abortTransaction o T = .ok σ') : Resolving l σ' := by
  have hk : Settled (Reached l) := (Reached.kept (C := fun _ _ => True)).toSettled
  exact ⟨hk.abort h.reached ha, h.listed.left (left_abortTransaction ha),
    h.linked.left (left_abortTransaction ha)⟩

/-- A round takes a live transaction from the set, and aborts it. -/
lemma round (h : Resolving l σ) (hd : σ.detectDeadlock o = some (true, ρ)) :
    ∃ ref rest, ρ.transactionsSet = ref :: rest ∧ ref.transactionId ∈ ρ.transactions ∧
      ∃ σ', ρ.abortTransaction o ref.transactionId = .ok σ' := by
  obtain ⟨hρ, ht⟩ := h.detect hd
  obtain ⟨b, ρ', hd', hb⟩ := detectDeadlock_iff σ o
  rw [hd] at hd'
  cases hd'
  obtain ⟨T, hT⟩ := h.linked.exists_live (hb.mp rfl)
  obtain ⟨ref, rest, σ', hs, hlive, hab, -⟩ := hρ.listed.exists_victim (ht ▸ hT) o
  exact ⟨ref, rest, hs, hlive, σ', hab⟩

lemma rounds (h : Resolving l σ) (hr : Rounds o Ts σ σ') : Resolving l σ' ∧
    σ'.transactions.keys.length + Ts.length = σ.transactions.keys.length := by
  induction hr with
  | nil => exact ⟨h, rfl⟩
  | @cons σ ρ σ₁ σ' ref rest Ts hd hs ha _ ih =>
      obtain ⟨hρ, ht⟩ := h.detect hd
      obtain ⟨ref', rest', hs', hlive, -⟩ := h.round hd
      rw [hs] at hs'
      cases hs'
      obtain ⟨h', hlen⟩ := ih (hρ.abort ha)
      refine ⟨h', ?_⟩
      have h1 := length_keys_of_left (left_abortTransaction ha) hlive
      rw [ht] at h1
      rw [List.length_cons]
      omega

/-- The loop ends without a cycle, when the fuel is enough for all live transactions. -/
lemma resolveDeadlocks (h : Resolving l σ) {fuel : ℕ} (hf : σ.transactions.keys.length < fuel) :
    ∃ Ts σ₁ τ, Rounds o Ts σ σ₁ ∧ σ₁.detectDeadlock o = some (false, τ) ∧
      σ.resolveDeadlocks o fuel = .ok τ ∧ Acyclic τ.WaitsFor := by
  induction fuel generalizing σ with
  | zero => exact absurd hf (Nat.not_lt_zero _)
  | succ fuel ih =>
      obtain ⟨b, ρ, hd, hb⟩ := detectDeadlock_iff σ o
      cases b with
      | false =>
          refine ⟨[], σ, ρ, .nil, hd, by rw [State.resolveDeadlocks, hd], ?_⟩
          rw [waitsFor_detectDeadlock hd]
          exact not_not.mp (mt hb.mpr Bool.false_ne_true)
      | true =>
          obtain ⟨hρ, ht⟩ := h.detect hd
          obtain ⟨ref, rest, hs, hlive, σ₁, ha⟩ := h.round hd
          have h1 := length_keys_of_left (left_abortTransaction ha) hlive
          rw [ht] at h1
          obtain ⟨Ts, σ₂, τ, hr, hd₂, hx, hac⟩ := ih (hρ.abort ha) (by omega)
          refine ⟨_, σ₂, τ, .cons hd hs ha hr, hd₂, ?_, hac⟩
          rw [State.resolveDeadlocks, hd]
          dsimp only
          rw [hs]
          dsimp only
          rw [ha]
          exact hx

end Resolving

end State

section Runs

variable {l : List Feed} {sch : Schedule} {σ : State}

lemma resolving_of_callOf (ha : Admissible l) (hc : CallOf l sch σ) :
    ∃ l', State.Resolving l' σ := by
  obtain ⟨l₁, -, -, -, hL, -⟩ := (listed_invariant fun _ _ => True).invariant.callOf ha (by simp) hc
  obtain ⟨l₂, -, -, -, hK, -⟩ := (linked_invariant fun _ _ => True).invariant.callOf ha (by simp) hc
  exact ⟨l₁, hL.1.1, hL.2, hK.2⟩

/-- **Deadlock resolution.** In every round the set of live transactions has a first element, and
exactly this live transaction is aborted; the loop ends after at most as many rounds as there were
live transactions, and then the wait-for graph has no cycle. -/
theorem deadlocks_resolved (ha : Admissible l) (hc : CallOf l sch σ) :
    (∀ Ts σ₁ ρ, State.Rounds sch.detect Ts σ σ₁ → σ₁.detectDeadlock sch.detect = some (true, ρ) →
      ∃ ref rest σ₂, ρ.transactionsSet = ref :: rest ∧ ref.transactionId ∈ ρ.transactions ∧
        ρ.abortTransaction sch.detect ref.transactionId = .ok σ₂ ∧
        ∀ T, T ∈ σ₂.transactions ↔ T ∈ ρ.transactions ∧ T ≠ ref.transactionId) ∧
    ∃ Ts σ₁ τ, State.Rounds sch.detect Ts σ σ₁ ∧ σ₁.detectDeadlock sch.detect = some (false, τ) ∧
      Ts.length ≤ σ.transactions.keys.length ∧ σ.resolved sch = .ok τ ∧ Acyclic τ.WaitsFor := by
  obtain ⟨l', h⟩ := resolving_of_callOf ha hc
  constructor
  · intro Ts σ₁ ρ hr hd
    obtain ⟨ref, rest, hs, hlive, σ₂, hab⟩ := (h.rounds hr).1.round hd
    exact ⟨ref, rest, σ₂, hs, hlive, hab,
      fun T => (State.left_abortTransaction hab).mem_transactions⟩
  · obtain ⟨Ts, σ₁, τ, hr, hd, hx, hac⟩ := h.resolveDeadlocks (o := sch.detect) (Nat.lt_succ_self _)
    have hlen := (h.rounds hr).2
    exact ⟨Ts, σ₁, τ, hr, hd, by omega, hx, hac⟩

/-- Two transactions wait for each other, and a third one waits for nobody. -/
def deadlockRun : List Feed :=
  inOrder Schedule.stored [.begin 1, .begin 2, .begin 3, .write 1 2 5, .write 2 4 6, .write 1 4 7,
    .write 2 2 8, .begin 4]

theorem deadlocks_resolved_deadlockRun : ∃ σ τ, CallOf deadlockRun Schedule.stored σ ∧
    1 ∈ σ.waitsFor 2 ∧ 2 ∈ σ.waitsFor 1 ∧ σ.resolved Schedule.stored = .ok τ ∧
    Acyclic τ.WaitsFor := by
  obtain ⟨p, hp, hf⟩ := exists_ok_of_eval
    (x := feedCall (deadlockRun.take 7) ⟨.begin 4, 7, Schedule.stored⟩)
    (f := fun p => decide (1 ∈ p.1.waitsFor 2 ∧ 2 ∈ p.1.waitsFor 1)) (a := true)
    (by decide +kernel)
  obtain ⟨hc, -⟩ := callOf_of_feedCall [] hp
  obtain ⟨-, Ts, σ₁, τ, -, -, -, hx, hac⟩ := deadlocks_resolved (by decide +kernel) hc
  exact ⟨p.1, τ, hc, (of_decide_eq_true hf).1, (of_decide_eq_true hf).2, hx, hac⟩

/-- **The youngest transaction is sacrificed.** The transaction that a round of the loop aborts is
the live one that was begun last, and there is a cycle then. -/
theorem youngest_sacrificed (ha : Admissible l) (hc : CallOf l sch σ) :
    ∀ Ts σ₁ ρ ref rest, State.Rounds sch.detect Ts σ σ₁ →
      σ₁.detectDeadlock sch.detect = some (true, ρ) → ρ.transactionsSet = ref :: rest →
      ¬Acyclic ρ.WaitsFor ∧ ρ.beganAt ref.transactionId = some ref.timestamp ∧
        ∀ T k, ρ.beganAt T = some k → k ≤ ref.timestamp := by
  intro Ts σ₁ ρ ref rest hr hd hs
  obtain ⟨l', h⟩ := resolving_of_callOf ha hc
  obtain ⟨hρ, -⟩ := (h.rounds hr).1.detect hd
  obtain ⟨hlive, hmax⟩ := hρ.listed.first hs
  refine ⟨?_, hlive, fun T k hk => hmax hk⟩
  obtain ⟨b, ρ', hd', hb⟩ := State.detectDeadlock_iff σ₁ sch.detect
  rw [hd] at hd'
  cases hd'
  rw [State.waitsFor_detectDeadlock hd]
  exact hb.mp rfl

theorem youngest_sacrificed_deadlockRun : ∃ σ ρ, CallOf deadlockRun Schedule.stored σ ∧
    σ.detectDeadlock Schedule.stored.detect = some (true, ρ) ∧ ρ.beganAt 3 = some 2 ∧
      ∀ T k, ρ.beganAt T = some k → k ≤ 2 := by
  obtain ⟨p, hp, hf⟩ := exists_ok_of_eval
    (x := feedCall (deadlockRun.take 7) ⟨.begin 4, 7, Schedule.stored⟩)
    (f := fun p : State × State => (p.1.detectDeadlock Schedule.stored.detect).map
      fun q : Bool × State => (q.1, q.2.transactionsSet))
    (a := some (true, [⟨2, 3⟩, ⟨1, 2⟩, ⟨0, 1⟩])) (by decide +kernel)
  obtain ⟨⟨b, ρ⟩, hd, hq⟩ := Option.map_eq_some_iff.mp hf
  simp only [Prod.mk.injEq] at hq
  obtain ⟨rfl, hs⟩ := hq
  obtain ⟨hc, -⟩ := callOf_of_feedCall [] hp
  obtain ⟨-, hlive, hmax⟩ := youngest_sacrificed (by decide +kernel) hc [] p.1 ρ _ _ .nil hd hs
  exact ⟨p.1, ρ, hc, hd, hlive, hmax⟩

/-- **A bystander is sacrificed**: the third transaction waits for nobody, and is aborted first. -/
theorem bystander_sacrificed : Admissible deadlockRun ∧ ∃ σ ρ ref rest,
    CallOf deadlockRun Schedule.stored σ ∧
      σ.detectDeadlock Schedule.stored.detect = some (true, ρ) ∧ ρ.transactionsSet = ref :: rest ∧
      ref.transactionId = 3 ∧ ρ.waitsFor 3 = [] ∧ ¬TransGen ρ.WaitsFor 3 3 := by
  obtain ⟨p, hp, hf⟩ := exists_ok_of_eval
    (x := feedCall (deadlockRun.take 7) ⟨.begin 4, 7, Schedule.stored⟩)
    (f := fun p : State × State => (p.1.detectDeadlock Schedule.stored.detect).map
      fun q : Bool × State => (q.1, q.2.transactionsSet, decide (q.2.waitsFor 3 = [])))
    (a := some (true, [⟨2, 3⟩, ⟨1, 2⟩, ⟨0, 1⟩], true)) (by decide +kernel)
  obtain ⟨⟨b, ρ⟩, hd, hq⟩ := Option.map_eq_some_iff.mp hf
  simp only [Prod.mk.injEq, decide_eq_true_iff] at hq
  obtain ⟨rfl, hs, hw⟩ := hq
  refine ⟨by decide +kernel, p.1, ρ, _, _, (callOf_of_feedCall [] hp).1, hd, hs, rfl, hw,
    fun hc => ?_⟩
  obtain ⟨T, hT, -⟩ := Relation.TransGen.head'_iff.mp hc
  rw [State.WaitsFor, hw] at hT
  cases hT

end Runs

end RepCRec
