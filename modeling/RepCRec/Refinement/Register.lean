import RepCRec.Engine.Indexes
import RepCRec.Engine.Progress
import RepCRec.Refinement.Serving
import RepCRec.Refinement.Stamps

/-!
The set of live transactions and the wait-for graph along a run. The set lists the live transactions
from the last one that was begun to the first (`listed_invariant`), and only live transactions
wait for others (`linked_invariant`).
-/

namespace RepCRec

open Container (IterOrder SortedByKey insertByKey)

namespace State

variable {l l' : List Feed} {σ σ' : State} {o : IterOrder} {r : Request} {es : List Event}
  {T : TranId}

/-! ### The set of live transactions -/

/-- The set of live transactions lists them by the times at which they were begun. -/
structure Listed (l : List Feed) (σ : State) : Prop where
  mem : ∀ {ref : TransactionRef}, ref ∈ σ.transactionsSet ↔
    σ.beganAt ref.transactionId = some ref.timestamp
  sorted : SortedByKey (fun ref : TransactionRef => -ref.timestamp) σ.transactionsSet
  fed : ∀ {T k}, σ.beganAt T = some k → ∃ r, Fed l r ∧ r.timestamp = k
  inj : ∀ {T T' k}, σ.beganAt T = some k → σ.beganAt T' = some k → T = T'

namespace Listed

lemma mono (h : Listed l σ) (hl : ∀ {r}, Fed l r → Fed l' r) : Listed l' σ where
  mem := h.mem
  sorted := h.sorted
  fed hT := by
    obtain ⟨r, hr, hts⟩ := h.fed hT
    exact ⟨r, hl hr, hts⟩
  inj := h.inj

lemma congr (h : Listed l σ) (hb : ∀ T, σ'.beganAt T = σ.beganAt T)
    (hs : σ'.transactionsSet = σ.transactionsSet) : Listed l σ' where
  mem := by
    intro ref
    rw [hs, hb, h.mem]
  sorted := hs ▸ h.sorted
  fed hT := h.fed (hb _ ▸ hT)
  inj hT hT' := h.inj (hb _ ▸ hT) (hb _ ▸ hT')

lemma left (h : Listed l σ) (hg : Left T σ σ') : Listed l σ' where
  mem := by
    intro ref
    rw [hg.transactionsSet, setWithout, List.mem_filter, h.mem, hg.beganAt]
    split_ifs with heq
    · rw [heq]
      exact iff_of_false (fun hT => bne_iff_ne.mp hT.2 hT.1.symm) (by simp)
    · refine and_iff_left_of_imp fun href => bne_iff_ne.mpr fun hT => heq ?_
      exact h.inj href hT.symm
  sorted := by
    rw [hg.transactionsSet]
    exact h.sorted.filter _
  fed hT := by
    rw [hg.beganAt] at hT
    split_ifs at hT
    exact h.fed hT
  inj hT hT' := by
    rw [hg.beganAt] at hT hT'
    split_ifs at hT hT'
    exact h.inj hT hT'

/-- A begin sets the begin of its transaction. -/
lemma beganAt_execCreate (σ : State) (ts : Timestamp) (T T' : TranId) (b : Bool) :
    (σ.execCreate ts T b).beganAt T' = if T' = T then some ts else σ.beganAt T' := by
  rw [beganAt, execCreate, transactions_emit, addTransaction, Dict.lookup_insert]
  split_ifs <;> rfl

/-- A transaction that is begun at a time of its own is listed. -/
lemma create_of_ne (h : Listed l σ) {ts : Timestamp} (b : Bool) (hT : T ∉ σ.transactions)
    (hts : ∀ {T' k}, σ.beganAt T' = some k → k ≠ ts) (hfed : Fed l' (.create ts T b))
    (hl : ∀ {r}, Fed l r → Fed l' r) : Listed l' (σ.execCreate ts T b) := by
  have hdead : σ.beganAt T = none := by
    rw [beganAt, AList.lookup_eq_none.mpr hT]
    rfl
  have hset : (σ.execCreate ts T b).transactionsSet =
      insertByKey (fun ref : TransactionRef => -ref.timestamp) ⟨ts, T⟩ σ.transactionsSet := rfl
  refine ⟨fun {ref} => ?_, ?_, fun {T' k} hk => ?_, fun {T₁ T₂ k} h₁ h₂ => ?_⟩
  · rw [hset, beganAt_execCreate]
    constructor
    · intro href
      rcases Container.mem_of_mem_insertByKey href with rfl | href
      · rw [if_pos rfl]
      · have hk := h.mem.mp href
        rw [if_neg fun heq => by simp [heq, hdead] at hk, hk]
    · intro hk
      split_ifs at hk with heq
      · rw [Option.some.injEq] at hk
        have href : ref = ⟨ts, T⟩ := by rw [← heq, hk]
        rw [href]
        refine Container.self_mem_insertByKey fun ref' href' => ?_
        rw [Ne, Int.neg_inj]
        exact hts (h.mem.mp href')
      · exact Container.mem_insertByKey_of_mem (h.mem.mpr hk)
  · rw [hset]
    exact h.sorted.insertByKey
  · rw [beganAt_execCreate] at hk
    split_ifs at hk with heq
    · exact ⟨_, hfed, Option.some.inj hk⟩
    · obtain ⟨r, hr, hk⟩ := h.fed hk
      exact ⟨r, hl hr, hk⟩
  · rw [beganAt_execCreate] at h₁ h₂
    split_ifs at h₁ h₂ with heq₁ heq₂ heq₂
    · rw [heq₁, heq₂]
    · exact absurd (Option.some.inj h₁).symm (hts h₂)
    · exact absurd (Option.some.inj h₂).symm (hts h₁)
    · exact h.inj h₁ h₂

/-- A transaction that is begun after all others is listed. -/
lemma create (h : Listed l σ) {ts : Timestamp} (b : Bool) (hT : T ∉ σ.transactions)
    (hts : ∀ r, Fed l r → r.timestamp < ts) (hfed : Fed l' (.create ts T b))
    (hl : ∀ {r}, Fed l r → Fed l' r) : Listed l' (σ.execCreate ts T b) := by
  refine h.create_of_ne b hT (fun {T' k} hk => ?_) hfed hl
  obtain ⟨r, hr, rfl⟩ := h.fed hk
  exact (hts r hr).ne

/-- Only begins add entries. -/
lemma exec_of_create (h : Listed l σ) (hout : Outcome o σ r es σ')
    (hcreate : ∀ ts T b, r = .create ts T b → Listed l (σ.execCreate ts T b)) : Listed l σ' := by
  refine hout.index_induction h (fun hs h => h.congr hs.beganAt hs.transactionsSet)
    (fun _ hg h => h.left hg) hcreate (fun _ _ _ _ _ _ _ _ => ?_) (fun _ _ _ _ _ _ _ => ?_)
    (fun _ _ _ _ _ _ _ _ _ => ?_) (fun _ h => h.congr (fun _ => rfl) rfl) fun _ _ _ hrec => ?_
  · exact h.congr (fun _ => rfl) rfl
  · exact h.congr (fun _ => rfl) rfl
  · exact h.congr (fun _ => rfl) rfl
  · refine h.congr (fun T => ?_) hrec.transactionsSet
    rw [beganAt, hrec.transactions, beganAt]

lemma exec (h : Listed l σ) (he : Executes l l' r) (hR : Reached l σ)
    (hout : Outcome o σ r es σ') : Listed l' σ' := by
  refine (h.mono he.fed_mono).exec_of_create hout fun ts T b hr => ?_
  subst hr
  exact h.create b (fun hT => (he.fresh rfl).1 (hR.known.live hT))
    (fun r hr => he.lt_of_isBegin rfl hr) he.fed he.fed_mono

/-- The first transaction of the set is the last one that was begun. -/
lemma first (h : Listed l σ) {ref : TransactionRef} {rest : List TransactionRef}
    (hs : σ.transactionsSet = ref :: rest) : σ.beganAt ref.transactionId = some ref.timestamp ∧
      ∀ {T k}, σ.beganAt T = some k → k ≤ ref.timestamp := by
  refine ⟨h.mem.mp (by rw [hs]; exact List.mem_cons_self), fun {T k} hk => ?_⟩
  have hmem : (⟨k, T⟩ : TransactionRef) ∈ σ.transactionsSet := h.mem.mpr hk
  have hsort := h.sorted
  rw [hs] at hmem hsort
  rcases List.mem_cons.mp hmem with heq | hmem
  · exact (congrArg TransactionRef.timestamp heq).le
  · exact (Int.neg_lt_neg_iff.mp ((List.pairwise_cons.mp hsort).1 _ hmem)).le

/-- The set is empty when no transaction is live. -/
lemma exists_cons (h : Listed l σ) (hT : T ∈ σ.transactions) :
    ∃ ref rest, σ.transactionsSet = ref :: rest := by
  obtain ⟨k, hk⟩ := Option.isSome_iff_exists.mp (isSome_beganAt.mpr hT)
  refine List.exists_cons_of_ne_nil fun hnil => ?_
  have hmem : (⟨k, T⟩ : TransactionRef) ∈ σ.transactionsSet := h.mem.mpr hk
  rw [hnil] at hmem
  cases hmem

/-- While a transaction is live, the first one of the set can be aborted, and the others stay. -/
lemma exists_victim (h : Listed l σ) (hT : T ∈ σ.transactions) (o : IterOrder) :
    ∃ ref rest σ', σ.transactionsSet = ref :: rest ∧ ref.transactionId ∈ σ.transactions ∧
      σ.abortTransaction o ref.transactionId = .ok σ' ∧ σ'.transactionsSet = rest := by
  obtain ⟨ref, rest, hs⟩ := h.exists_cons hT
  have hbegan := (h.first hs).1
  have hlive : ref.transactionId ∈ σ.transactions := isSome_beganAt.mp (by rw [hbegan]; rfl)
  obtain ⟨σ', hab⟩ := exists_abortTransaction (o := o) hlive
  refine ⟨ref, rest, σ', hs, hlive, hab, ?_⟩
  have hsort := h.sorted
  rw [hs] at hsort
  rw [(left_abortTransaction hab).transactionsSet, setWithout, hs, hbegan, List.filter_cons,
    if_neg (by simp), List.filter_eq_self]
  intro ref' href'
  have hlt : ref'.timestamp < ref.timestamp :=
    Int.neg_lt_neg_iff.mp ((List.pairwise_cons.mp hsort).1 ref' href')
  simpa using hlt.ne

end Listed

/-! ### The wait-for graph -/

/-- Only live transactions wait for others, or the id that stands for no transaction. -/
structure Linked (σ : State) : Prop where
  live : ∀ {T}, σ.waitsFor T ≠ [] → T = -1 ∨ T ∈ σ.transactions
  not_self : ∀ {T}, T ∉ σ.transactions → T ∉ σ.waitsFor T

namespace Linked

lemma congr (h : Linked σ) (hw : ∀ T, σ'.waitsFor T = σ.waitsFor T)
    (ht : ∀ T, T ∈ σ.transactions → T ∈ σ'.transactions) : Linked σ' where
  live hT := (h.live (hw _ ▸ hT)).imp id (ht _)
  not_self hT hs := h.not_self (fun hT' => hT (ht _ hT')) (hw _ ▸ hs)

lemma left (h : Linked σ) (hg : Left T σ σ') : Linked σ' where
  live {T'} hT := by
    obtain ⟨T₂, hT₂⟩ := List.exists_mem_of_ne_nil _ hT
    obtain ⟨hw, hne⟩ := hg.subset_waitsFor hT₂
    exact (h.live (List.ne_nil_of_mem hw)).imp id fun hlive => hg.mem_transactions.mpr ⟨hlive, hne⟩
  not_self {T'} hT hs := by
    obtain ⟨hw, hne⟩ := hg.subset_waitsFor hs
    exact h.not_self (fun hlive => hT (hg.mem_transactions.mpr ⟨hlive, hne⟩)) hw

lemma lock (h : Linked σ) (hg : σ.Good) (hT : T = -1 ∨ T ∈ σ.transactions) (v : VarId)
    (s : SiteId) :
    Linked (σ.assignWaitForGraph o T (waitOwners (σ.getVariable s v) T)) where
  live {T'} hw := by
    obtain ⟨T₂, hT₂⟩ := List.exists_mem_of_ne_nil _ hw
    rcases mem_assignWaitForGraph.mp hT₂ with hT₂ | ⟨rfl, -⟩
    · exact h.live (List.ne_nil_of_mem hT₂)
    · exact hT
  not_self {T'} hdead hs := by
    rcases mem_assignWaitForGraph.mp hs with hs | ⟨rfl, hs⟩
    · exact h.not_self hdead hs
    · rcases mem_waitOwners hs with ⟨-, hne⟩ | hsh
      · exact hne rfl
      · exact hdead (hg.inv.shared_live (T := T') (s := s) (v := v) hsh)

lemma exec (h : Linked σ) (he : Serves l l' r σ) (hR : Reached l σ) (hout : Outcome o σ r es σ') :
    Linked σ' := by
  refine hout.index_induction h
    (fun hs h => h.congr hs.waitsFor fun T => (hs.mem_transactions T).mpr)
    (fun _ hg h => h.left hg) (fun ts T b hr => ?_) (fun T v s ha _ _ _ _ => ?_)
    (fun _ _ _ _ _ _ _ => ?_) (fun _ _ _ _ _ _ _ _ _ => ?_)
    (fun _ h => h.congr (fun _ => rfl) fun _ => id) fun _ _ _ hrec => ?_
  · exact h.congr (fun _ => rfl) fun T' hT' => (AList.mem_insert _).mpr (Or.inr hT')
  · have hT : r.transactionId = T ∧ r.isBegin = false := by
      cases r with
      | write | read =>
          cases ha
          exact ⟨rfl, rfl⟩
      | _ => cases ha
    exact h.lock hR.good (hT.1 ▸ he.live hT.2) v s
  · exact h.congr (fun _ => rfl) fun _ => id
  · exact h.congr (fun _ => rfl) fun _ => id
  · refine h.congr (fun T => ?_) fun T hT => ?_
    · rw [waitsFor, hrec.waitForGraph, waitsFor]
    · rw [hrec.transactions]
      exact hT

end Linked

end State

/-- **The set of live transactions lists them** from the last one that was begun to the first. -/
theorem listed_invariant (C : Request → State → Prop) : ServingInvariant C State.Listed where
  initial := by
    refine ⟨fun {ref} => ?_, List.Pairwise.nil, fun hT => ?_, fun hT => ?_⟩
    all_goals simp [State.initial, State.beganAt] at *
  graph h _ := h.congr (fun _ => rfl) rfl
  request h := h.congr (fun _ => rfl) rfl
  abort _ h ha := h.left (State.left_abortTransaction ha)
  dequeue h := h.congr (fun _ => rfl) rfl
  enqueue _ _ _ h _ _ _ := (h.mono fun hr => hr.snoc _).congr (fun _ => rfl) rfl
  exec _ he hR h _ _ hout := h.exec he.executes hR hout
  mono _ h := h.mono fun hr => hr.snoc _

/-- **Only live transactions wait for others.** -/
theorem linked_invariant (C : Request → State → Prop) :
    ServingInvariant C fun _ => State.Linked where
  initial := ⟨fun hT => by simp [State.initial, State.waitsFor] at hT,
    fun _ hT => by simp [State.initial, State.waitsFor] at hT⟩
  graph h hw := h.congr hw fun _ => id
  request h := h.congr (fun _ => rfl) fun _ => id
  abort _ h ha := h.left (State.left_abortTransaction ha)
  dequeue h := h.congr (fun _ => rfl) fun _ => id
  enqueue _ _ _ h _ _ _ := h.congr (fun _ => rfl) fun _ => id
  exec _ he hR h _ _ hout := h.exec he hR hout
  mono _ h := h

end RepCRec
