import RepCRec.Guarantees.LockedReads
import RepCRec.Refinement.Blocking

/-!
The exceptions that executing a request can raise (`throws_iff_not_harmless`). The read of a
variable that its transaction holds a lock on ends in the default branch of the switch over the
statuses (`reread_throws`). Transactions are looked up only while they are live, but for the
transaction `-1`: its requests are executed without asking whether it is live.
-/

namespace RepCRec

open Container (IterOrder bind_eq_error)

/-! ### Where the exceptions come from -/

/-- The fault is one of the two exceptions. -/
def Fault.IsException (e : Fault) : Prop := e = .errorStatus ∨ e = .outOfRange

/-- The fault of a computation that fails. -/
def fault? {α : Type} : Except Fault α → Option Fault
  | .error e => some e
  | .ok _ => none

lemma fault?_eq_some {α : Type} {x : Except Fault α} {e : Fault} :
    fault? x = some e ↔ x = .error e := by
  cases x <;> simp [fault?]

namespace State

variable {sch : Schedule} {σ σ' : State} {e : Fault}

/-- The request does not read a variable that its transaction holds a lock on, and if it looks up
the transaction `-1`, then this one is live. -/
def Harmless (σ : State) (r : Request) : Prop :=
  ¬σ.RereadsOwn r ∧ (r.transactionId = -1 → σ.LooksUp r → r.transactionId ∈ σ.transactions)

lemma not_isException_of_abortTransaction {o : IterOrder} {T : TranId}
    (h : σ.abortTransaction o T = .error e) : ¬e.IsException := by
  rw [abortTransaction, bind_eq_error] at h
  rcases h with h | ⟨σ₁, -, h⟩
  · rw [evictTransaction] at h
    split at h
    · cases h
    · split_ifs at h
      cases h
      simp [Fault.IsException]
  · cases h

lemma not_isException_of_resolveDeadlocks {o : IterOrder} {fuel : ℕ}
    (h : σ.resolveDeadlocks o fuel = .error e) : ¬e.IsException := by
  induction fuel generalizing σ with
  | zero =>
      cases h
      simp [Fault.IsException]
  | succ fuel ih =>
      rw [resolveDeadlocks] at h
      split at h
      · cases h
        simp [Fault.IsException]
      · cases h
      · split at h
        · cases h
          simp [Fault.IsException]
        · rcases bind_eq_error.mp h with h | ⟨σ₁, -, h⟩
          · exact not_isException_of_abortTransaction h
          · exact ih h

lemma calledInSet_of_error {T : TranId} {rs : List Request} {b : Bool}
    (h : execBlocked sch T rs b σ = .error e) :
    ∃ r τ, CalledInSet sch rs σ r τ ∧ τ.exec (sch.exec r.timestamp) r = .error e := by
  induction rs generalizing σ b with
  | nil => cases h
  | cons r rs ih =>
      rw [execBlocked, bind_eq_error] at h
      rcases h with h | ⟨σ₁, h1, h⟩
      · exact ⟨r, σ, Or.inl ⟨rfl, rfl⟩, h⟩
      · obtain ⟨r', τ, hc, hx⟩ := ih h
        exact ⟨r', τ, Or.inr ⟨σ₁, h1, hc⟩, hx⟩

lemma calledInWalk_of_error {ks fin : List TranId} (h : walkBlocked sch ks fin σ = .error e)
    (he : e.IsException) : ∃ r τ, CalledInWalk sch ks σ r τ ∧ ∃ o, τ.exec o r = .error e := by
  induction ks generalizing σ fin with
  | nil => cases h
  | cons T ks ih =>
      rw [walkBlocked] at h
      simp only [CalledInWalk]
      cases hq : σ.blockedTransactionsQueue.lookup T with
      | none =>
          simp only [hq] at h
          exact ih h
      | some rs =>
          simp only [hq] at h
          split_ifs at h ⊢ with hw
          · rcases bind_eq_error.mp h with h | ⟨⟨b, σ₁⟩, h1, h⟩
            · obtain ⟨r, τ, hc, hx⟩ := calledInSet_of_error h
              exact ⟨r, τ, Or.inl hc, _, hx⟩
            · cases b with
              | false =>
                  cases h
                  simp [Fault.IsException] at he
              | true =>
                  obtain ⟨r, τ, hc, hx⟩ := ih h
                  exact ⟨r, τ, Or.inr ⟨σ₁, h1, hc⟩, hx⟩
          · exact ih h

lemma calledInWalk_of_serveBlocked (h : serveBlocked sch σ = .error e) (he : e.IsException) :
    ∃ r τ, CalledInWalk sch (sch.walk.visit σ.blockedTransactionsQueue.keys) σ r τ ∧
      ∃ o, τ.exec o r = .error e := by
  rcases bind_eq_error.mp h with h | ⟨_, -, h⟩
  · exact calledInWalk_of_error h he
  · cases h

/-- An exception that leaves `executeInstructions` was raised by the execution of a request. -/
theorem called_of_error (h : executeInstructions sch σ = .error e) (he : e.IsException) :
    ∃ r τ, Called sch σ r τ ∧ τ.Throws r := by
  suffices hs : ∃ r τ, Called sch σ r τ ∧ ∃ o, τ.exec o r = .error e by
    obtain ⟨r, τ, hc, o, hx⟩ := hs
    exact ⟨r, τ, hc, o, by rcases he with rfl | rfl <;> simp [hx]⟩
  rw [executeInstructions] at h
  rcases bind_eq_error.mp h with h | ⟨τ, hτ, h⟩
  · exact absurd he (not_isException_of_resolveDeadlocks h)
  · cases hr : τ.request with
    | none =>
        simp only [hr] at h
        obtain ⟨r, τ', hc, hx⟩ := calledInWalk_of_serveBlocked h he
        exact ⟨r, τ', Or.inr ⟨τ, Or.inl ⟨hτ, hr⟩, hc⟩, hx⟩
    | some r =>
        simp only [hr] at h
        split_ifs at h with hst hb hrw
        · cases h
        · rcases bind_eq_error.mp h with h | ⟨_, -, h⟩
          · exact ⟨r, τ, Or.inl ⟨hτ, hr, by simpa using hst, fun _ => hrw⟩, _, h⟩
          · cases h
        · cases h
        · rw [Bool.not_eq_true] at hst hb
          have hd : CalledDirectly sch σ r τ := ⟨hτ, hr, hst, by simp [hb]⟩
          rcases bind_eq_error.mp h with h | ⟨σ₁, h1, h⟩
          · exact ⟨r, τ, Or.inl hd, _, h⟩
          · obtain ⟨r', τ', hc, hx⟩ := calledInWalk_of_serveBlocked h he
            exact ⟨r', τ', Or.inr ⟨σ₁, Or.inr ⟨r, τ, hd, hb, h1⟩, hc⟩, hx⟩

end State

section Runs

variable {l : List Feed} {r : Request} {τ : State}

/-- A request that is executed and is no begin is one of a live transaction, or of `-1`. -/
lemma live_of_called (ha : Admissible l) (hc : CalledDuring l r τ) (hb : r.isBegin = false) :
    r.transactionId = -1 ∨ r.transactionId ∈ τ.transactions := by
  obtain ⟨sch, σ, hc, ⟨-, -, hst, -⟩ | hq⟩ := hc
  · rw [State.isStale, hb] at hst
    by_contra hno
    simp_all
  · obtain ⟨l', -, hs⟩ := (waiting_invariant fun _ _ => True).taken ha (by simp) ⟨sch, σ, hc, hq⟩
    exact or_iff_not_imp_left.mpr hs.live

/-- The execution of a request throws exactly when it is such a read, or when it looks up the
transaction `-1` and this one is not live. -/
lemma not_throws_iff (ha : Admissible l) (hc : CalledDuring l r τ) :
    ¬τ.Throws r ↔ τ.Harmless r := by
  have hg := good_called ha hc
  rw [State.throws_iff hg.apart fun T v => hg.not_holdsLock, not_or, not_and, not_not]
  refine and_congr_right fun _ => ⟨fun h _ => h, fun h hl => ?_⟩
  by_cases hT : r.transactionId = -1
  · exact h hT hl
  · refine (live_of_called ha hc ?_).resolve_left hT
    cases r <;> first | rfl | cases hl

/-- **Exceptions.** The execution of a request throws `"error status!"` or `std::out_of_range`
exactly when it is not harmless. A run whose requests are all harmless raises neither of them. -/
theorem throws_iff_not_harmless (ha : Admissible l) :
    (∀ r τ, CalledDuring l r τ → (¬τ.Throws r ↔ τ.Harmless r)) ∧
    ((∀ r τ, CalledDuring l r τ → τ.Harmless r) → ∀ sch σ e, CallOf l sch σ →
      State.executeInstructions sch σ = .error e → ¬e.IsException) := by
  refine ⟨fun r τ => not_throws_iff ha, fun h sch σ e hc hx he => ?_⟩
  obtain ⟨r, τ, hcall, ht⟩ := State.called_of_error hx he
  have hd : CalledDuring l r τ := ⟨sch, σ, hc, hcall⟩
  exact (not_throws_iff ha hd).mpr (h r τ hd) ht

/-- The read of a variable that the transaction holds no lock on. -/
theorem throws_iff_not_harmless_readRun : ∃ τ, CalledDuring readRun (.read 1 1 x2) τ ∧
    ¬τ.Throws (.read 1 1 x2) := by
  obtain ⟨τ, hc, hf⟩ := exists_calledDuring (l := inOrder Schedule.stored [.begin 1])
    (x := ⟨.read 1 2, 1, Schedule.stored⟩) (r := .read 1 1 x2)
    (f := fun τ => SiteId.all.any fun s => (τ.getVariable s x2).hasSharedLock 1 ||
      (τ.getVariable s x2).hasExclusiveLock 1)
    (a := false) [] (by decide +kernel)
  refine ⟨τ, hc, ((throws_iff_not_harmless (by decide +kernel)).1 _ τ hc).mpr
    ⟨?_, fun h => by cases h⟩⟩
  rintro ⟨ts, T, v, t, heq, -, -, -, -, s, -, -, hs⟩
  cases heq
  rw [List.any_eq_false] at hf
  exact hf s (SiteId.mem_all s) (by simpa using hs)

/-- A transaction reads a variable twice. -/
def rereadRun : List Feed :=
  inOrder Schedule.stored [.begin 1, .read 1 1, .read 1 1]

/-- **Reading twice**: the second read of a variable throws. -/
theorem reread_throws : Admissible rereadRun ∧
    ∃ τ, CalledDuring rereadRun (.read 2 1 x1) τ ∧ τ.Throws (.read 2 1 x1) := by
  obtain ⟨τ, hc, hf⟩ := exists_calledDuring (l := rereadRun.take 2)
    (x := ⟨.read 1 1, 2, Schedule.stored⟩) (r := .read 2 1 x1)
    (f := fun τ => fault? (τ.exec IterOrder.stored (.read 2 1 x1))) (a := some .errorStatus) []
    (by decide +kernel)
  exact ⟨by decide +kernel, τ, hc, IterOrder.stored, Or.inl (fault?_eq_some.mp hf)⟩

end Runs

end RepCRec
