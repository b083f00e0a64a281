import RepCRec.Engine.OpenRun
import RepCRec.Engine.ReadOnly
import RepCRec.Guarantees.Commits

/-!
Read-only transactions. A transaction that is begun as a read-only one takes no locks, has no
pending writes, and neither waits for locks nor is waited for, as long as its writes meet no site
that is up (`read_only_apart`). The engine does not check whether the transaction of a write is
read-only, and locks the copies for it (`read_only_writes`).
-/

namespace RepCRec

open Container (IterOrder)

/-- Every transaction is begun at most once. -/
def BeginsOnce (l : List Feed) : Prop :=
  l.Pairwise fun y x => ∀ T ∈ x.insr.begun?, T ∉ y.insr.begun?

lemma Admissible.beginsOnce {l : List Feed} (ha : Admissible l) : BeginsOnce l := by
  induction l using List.reverseRecOn with
  | nil => exact List.Pairwise.nil
  | append_singleton l x ih =>
      obtain ⟨hl, hx⟩ := (admissible_snoc l x).mp ha
      refine List.pairwise_append.mpr ⟨ih hl, List.pairwise_singleton _ x, fun y hy z hz => ?_⟩
      rw [List.mem_singleton.mp hz]
      exact fun T hT => hx.begin_once T hT y hy

/-- The only begin of a transaction. -/
lemma BeginsOnce.unique {l : List Feed} (h : BeginsOnce l) {x y : Feed} (hx : x ∈ l) (hy : y ∈ l)
    {T : TranId} (hxT : T ∈ x.insr.begun?) (hyT : T ∈ y.insr.begun?) : x = y := by
  by_contra hne
  obtain ⟨l₁, l₂, rfl⟩ := List.append_of_mem hx
  have hp := List.pairwise_append.mp h
  rcases List.mem_append.mp hy with hy | hy
  · exact hp.2.2 y hy x List.mem_cons_self T hxT hyT
  · refine (List.pairwise_cons.mp hp.2.1).1 y ?_ T hyT hxT
    exact (List.mem_cons.mp hy).resolve_left fun heq => hne heq.symm

namespace State

variable {σ : State} {T : TranId}

lemma readsOnly_initial (T : TranId) : ReadsOnly T State.initial where
  source := rfl
  target T' h := by cases h
  created h := by cases h
  named h := by cases h
  record h := by cases h
  unlocked s v h := by
    rcases h with h | h <;> cases h

lemma ReadsOnly.settled : Settled (ReadsOnly T) where
  graph h hw := h.spared (.of_eq rfl fun _ _ => rfl) (h.toUnlinked.congr hw rfl)
  abort h ha := h.abortTransaction ha
  request h := h.spared (.of_eq rfl fun _ _ => rfl) (h.toUnlinked.congr (fun _ => rfl) rfl)

lemma ReadsOnly.kept : Kept (WritesNothing T) (ReadsOnly T) (BeginsReadOnly T) where
  toSettled := ReadsOnly.settled
  queued h hl hr ts b heq := h.created hl (heq ▸ hr)
  exec h hb hw hx := by
    obtain ⟨es, hout⟩ := exec_outcome hx
    exact h.exec hw hb hout
  dequeue {σ T'} h := by
    refine h.spared (.of_eq rfl fun _ _ => rfl) ⟨h.source, h.target, fun {T₁ rs ts b} hl hr => ?_⟩
    rw [Dict.lookup_erase] at hl
    split_ifs at hl
    exact h.created hl hr

/-- The end of a transaction without pending writes stores nothing. -/
lemma ReadsOnly.sameStore {o : IterOrder} {ts : Timestamp} {σ' : State} (h : ReadsOnly T σ)
    (hx : σ.exec o (.finish ts T) = .ok σ') : SameStore σ σ' := by
  obtain ⟨es, hout⟩ := exec_outcome hx
  have hnil : ∀ s v, installsAt es s v = [] := installsAt_of_ne fun T' s v x ts' hmem => by
    obtain ⟨heq, t, ht, -, hx⟩ := hout.installs_mem hmem
    cases heq
    rw [(h.record ht).2, AccessMap.get?_empty] at hx
    cases hx
  constructor
  all_goals intro s v; have hst := hout.stored s v; rw [hnil] at hst
  · exact hst.value
  · exact hst.versions

end State

section Runs

variable {l : List Feed} {T : TranId}

/-- The begins of the transaction are read-only ones. -/
lemma runRule_readsOnly (T : TranId) : RunRule (State.WritesNothing T) (State.ReadsOnly T)
    (fun r τ => State.ReadsOnly T τ ∧ State.BeginsReadOnly T r)
    fun x _ => ∀ r, x.insr.request x.timestamp = .ok r → State.BeginsReadOnly T r :=
  State.ReadsOnly.kept.runRule (State.readsOnly_initial T) (fun hx hr => hx _ hr)
    fun h hb => h.spared (.of_eq rfl fun _ _ => rfl) (h.toUnlinked.enqueue hb)

/-- The condition on the writes holds when no instruction writes for the transaction. -/
lemma writesNothing_of_not_mem (hno : ∀ x ∈ l, ∀ v k, x.insr ≠ .write T v k) :
    ∀ r τ, CalledDuring l r τ → State.WritesNothing T r τ := by
  rintro r τ hc ts v k rfl
  obtain ⟨x, hx, hreq⟩ := fed_of_called hc
  generalize hinsr : x.insr = insr at hreq
  cases makes_of_request hreq
  exact absurd hinsr (hno x hx _ _)

/-- **Read-only transactions** take no locks, have no pending writes and no edges in the wait-for
graph, and their ends store nothing, when none of their writes is executed while a site with a copy
of its variable is up. -/
theorem read_only_apart (hl : BeginsOnce l) (hT : ∃ x ∈ l, x.insr = .beginRO T)
    (hw : ∀ r τ, CalledDuring l r τ → State.WritesNothing T r τ) :
    (∀ σ, Reaches l σ → State.ReadsOnly T σ) ∧ (∀ r τ, CalledDuring l r τ → State.ReadsOnly T τ) ∧
    ∀ ts τ o τ', CalledDuring l (.finish ts T) τ → τ.exec o (.finish ts T) = .ok τ' →
      State.SameStore τ τ' := by
  have hfed : FedUnder (fun x _ => ∀ r, x.insr.request x.timestamp = .ok r →
      State.BeginsReadOnly T r) l := by
    rintro l₁ x l₂ σ rfl - r hr ts b rfl
    obtain ⟨y, hy, hyT⟩ := hT
    have hxT : T ∈ x.insr.begun? := begun_of_request hr rfl
    obtain rfl := hl.unique (List.mem_append_right l₁ List.mem_cons_self) hy hxT
      (by rw [hyT]; exact Option.mem_some_self T)
    rw [hyT] at hr
    cases hr
    rfl
  refine ⟨fun σ h => ((runRule_readsOnly T).reaches hfed hw h).1,
    fun r τ h => (runRule_readsOnly T).called And.left hfed hw h, fun ts τ o τ' h hx => ?_⟩
  exact ((runRule_readsOnly T).called And.left hfed hw h).sameStore hx

/-- A read-only transaction reads a variable that another one writes. -/
def readerRun : List Feed :=
  inOrder Schedule.stored [.beginRO 1, .begin 2, .write 2 2 5, .read 1 2, .finish 1]

theorem read_only_apart_readerRun : ∃ σ τ, Reaches (readerRun.take 4) σ ∧ State.ReadsOnly 1 σ ∧
    .reads 1 s1 x2 20 ∈ σ.trace ∧ (σ.getVariable s1 x2).exclusiveLockOwner = some 2 ∧
      CalledDuring readerRun (.finish 4 1) τ ∧ State.ReadsOnly 1 τ := by
  obtain ⟨σ, hr, hf⟩ := exists_ok_of_eval (x := run (readerRun.take 4))
    (f := fun σ => decide (.reads 1 s1 x2 20 ∈ σ.trace ∧
      (σ.getVariable s1 x2).exclusiveLockOwner = some 2)) (a := true) (by decide +kernel)
  obtain ⟨τ, hc, -⟩ := exists_calledDuring (l := readerRun.take 4)
    (x := ⟨.finish 1, 4, Schedule.stored⟩) (r := .finish 4 1) (f := fun _ => true) (a := true) []
    (by decide +kernel)
  have hnone : ∀ x ∈ readerRun, ∀ v k, x.insr ≠ .write 1 v k := by
    simp [readerRun, inOrder]
  have happ := read_only_apart (l := readerRun) (T := 1)
    (Admissible.beginsOnce (by decide +kernel)) ⟨_, List.mem_cons_self, rfl⟩ 
    (writesNothing_of_not_mem hnone)
  refine ⟨σ, τ, .run hr, ?_, (of_decide_eq_true hf).1, (of_decide_eq_true hf).2, hc,
    happ.2.1 _ τ hc⟩
  refine (read_only_apart (l := readerRun.take 4) (T := 1)
    (Admissible.beginsOnce (by decide +kernel)) ⟨_, List.mem_cons_self, rfl⟩
    (writesNothing_of_not_mem ?_)).1 σ (.run hr)
  exact fun x hx => hnone x (List.mem_of_mem_take hx)

/-- A read-only transaction writes. -/
def readOnlyWriterRun : List Feed :=
  inOrder Schedule.stored [.beginRO 1, .write 1 2 5, .finish 1]

/-- **A read-only transaction writes**: it locks the copies, and its end stores the value. -/
theorem read_only_writes : Admissible readOnlyWriterRun ∧
    (∃ σ, Reaches (readOnlyWriterRun.take 2) σ ∧ σ.Owns 1 s1 x2) ∧
    ∃ σ, Reaches readOnlyWriterRun σ ∧ (σ.getVariable s1 x2).value = 5 := by
  obtain ⟨σ, hr, hf⟩ := exists_ok_of_eval (x := run (readOnlyWriterRun.take 2))
    (f := fun σ => (σ.getVariable s1 x2).exclusiveLockOwner) (a := some 1) (by decide +kernel)
  obtain ⟨σ', hr', hf'⟩ := exists_ok_of_eval (x := run readOnlyWriterRun)
    (f := fun σ => (σ.getVariable s1 x2).value) (a := 5) (by decide +kernel)
  exact ⟨by decide +kernel, ⟨σ, .run hr, Or.inl hf⟩, σ', .run hr', hf'⟩

end Runs

end RepCRec
