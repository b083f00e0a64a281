import RepCRec.Refinement.Stamps
import RepCRec.Schedules.Accesses

/-!
The trace of a run as a history of transactions with deferred writes. A transaction in `ro` executes
its reads, which are those in `snap`, in one piece at its begin, and all others have their accesses
and their commit where the trace has them (`history`). The commits of the history lead to the
database of the run, as long as the transactions in `ro` write nothing (`stored_invariant`).
-/

namespace RepCRec

open AvailableCopies (Action Steps Step)
open Container (IterOrder)
open Serial (Op Entry lastWrite runOps store)

/-- The database at the start of a run. -/
def initialDb : VarId → Value := fun v => v.id * 10

/-- What an entry of the trace is in the history. -/
def Event.entries (ro : TranId → Bool) (snap : TranId → List (Op VarId Value)) (e : Event) :
    List (Entry TranId VarId Value) :=
  match e.access? with
  | some (T, op) => if ro T then [] else [.access T op]
  | none => match e with
    | .created T _ => if ro T then (snap T).map (.access T) ++ [.commit T] else []
    | .committed T => if ro T then [] else [.commit T]
    | _ => []

def history (ro : TranId → Bool) (snap : TranId → List (Op VarId Value)) (trace : List Event) :
    List (Entry TranId VarId Value) :=
  trace.flatMap (Event.entries ro snap)

/-- An element of a list that is put together from lists is in one of them. -/
lemma exists_of_flatMap_eq {α β : Type} {f : α → List β} {l : List α} {b : β} {h₁ h₂ : List β}
    (h : l.flatMap f = h₁ ++ b :: h₂) : ∃ l₁ a l₂ m₁ m₂, l = l₁ ++ a :: l₂ ∧
      f a = m₁ ++ b :: m₂ ∧ h₁ = l₁.flatMap f ++ m₁ ∧ h₂ = m₂ ++ l₂.flatMap f := by
  induction l generalizing h₁ with
  | nil => simp at h
  | cons a l ih =>
      rw [List.flatMap_cons] at h
      rcases append_cons_eq_append h with ⟨n, h1, rfl⟩ | ⟨n, h1, rfl⟩
      · exact ⟨[], a, l, h₁, n, rfl, h1, rfl, rfl⟩
      · obtain ⟨l₁, a', l₂, m₁, m₂, rfl, h2, rfl, rfl⟩ := ih h1
        exact ⟨a :: l₁, a', l₂, m₁, m₂, rfl, h2, by simp, rfl⟩

section History

variable {ro : TranId → Bool} {snap : TranId → List (Op VarId Value)} {tr tr₁ tr₂ es : List Event}
  {e : Event} {T : TranId} {op : Op VarId Value} {v : VarId} {x : Value}

@[simp] lemma history_append :
    history ro snap (tr₁ ++ tr₂) = history ro snap tr₁ ++ history ro snap tr₂ := by simp [history]

lemma history_singleton : history ro snap [e] = e.entries ro snap := List.flatMap_singleton _ e

/-- The entries of the trace that are something in the history. -/
inductive Event.Enters (ro : TranId → Bool) (snap : TranId → List (Op VarId Value)) :
    Event → List (Entry TranId VarId Value) → Prop where
  | snapshot {T : TranId} {b : Bool} : ro T = true →
      Enters ro snap (.created T b) ((snap T).map (.access T) ++ [.commit T])
  | commits {T : TranId} : ro T = false → Enters ro snap (.committed T) [.commit T]
  | accesses {a : Event} {T : TranId} {o : Op VarId Value} : a.access? = some (T, o) →
      ro T = false → Enters ro snap a [.access T o]

lemma Event.entries_of_access? (h : e.access? = some (T, op)) :
    e.entries ro snap = if ro T then [] else [.access T op] := by
  simp only [entries, h]

lemma Event.enters_of_mem {b : Entry TranId VarId Value} (h : b ∈ e.entries ro snap) :
    e.Enters ro snap (e.entries ro snap) := by
  cases hacc : e.access? with
  | some p =>
      obtain ⟨T, op⟩ := p
      rw [Event.entries_of_access? hacc] at h ⊢
      split_ifs at h ⊢ with hro
      · cases h
      · exact .accesses hacc (by simpa using hro)
  | none =>
      cases e with
      | created T b =>
          simp only [entries, access?] at h ⊢
          split_ifs at h ⊢ with hro
          · exact .snapshot hro
          · cases h
      | committed T =>
          simp only [entries, access?] at h ⊢
          split_ifs at h ⊢ with hro
          · cases h
          · exact .commits (by simpa using hro)
      | _ => simp only [entries, hacc, List.not_mem_nil] at h

lemma Event.enters_of_eq {b : Entry TranId VarId Value} {m₁ m₂ : List (Entry TranId VarId Value)}
    (h : e.entries ro snap = m₁ ++ b :: m₂) : e.Enters ro snap (m₁ ++ b :: m₂) :=
  h ▸ Event.enters_of_mem (b := b) (by simp [h])

lemma mem_history {b : Entry TranId VarId Value} :
    b ∈ history ro snap tr ↔ ∃ e ∈ tr, b ∈ e.entries ro snap := by
  simp [history]

lemma access_mem_history : .access T op ∈ history ro snap tr ↔
    (ro T = true ∧ op ∈ snap T ∧ ∃ b, .created T b ∈ tr) ∨
      (ro T = false ∧ op ∈ accesses tr T) := by
  rw [mem_history]
  constructor
  · rintro ⟨e, he, h⟩
    have hen := Event.enters_of_mem h
    revert h hen
    generalize e.entries ro snap = m
    intro h hen
    cases hen with
    | @snapshot T' b hro =>
        obtain ⟨rfl, hop⟩ : T' = T ∧ op ∈ snap T' := by
          simp only [List.mem_append, List.mem_map, Entry.access.injEq, List.mem_singleton,
            reduceCtorEq, or_false] at h
          obtain ⟨op', hop, rfl, rfl⟩ := h
          exact ⟨rfl, hop⟩
        exact Or.inl ⟨hro, hop, b, he⟩
    | commits => simp at h
    | accesses hacc hro =>
        cases List.mem_singleton.mp h
        exact Or.inr ⟨hro, mem_accesses.mpr ⟨e, he, hacc⟩⟩
  · rintro (⟨hro, hop, b, hb⟩ | ⟨hro, hop⟩)
    · exact ⟨_, hb, by simp [Event.entries, Event.access?, hro, hop]⟩
    · obtain ⟨e, he, hacc⟩ := mem_accesses.mp hop
      refine ⟨e, he, ?_⟩
      rw [Event.entries_of_access? hacc, hro]
      exact List.mem_singleton_self _

lemma commit_mem_history : .commit T ∈ history ro snap tr ↔
    (ro T = true ∧ ∃ b, .created T b ∈ tr) ∨ (ro T = false ∧ .committed T ∈ tr) := by
  rw [mem_history]
  constructor
  · rintro ⟨e, he, h⟩
    have hen := Event.enters_of_mem h
    revert h hen
    generalize e.entries ro snap = m
    intro h hen
    cases hen with
    | @snapshot T' b hro =>
        obtain rfl : T = T' := by simpa using h
        exact Or.inl ⟨hro, b, he⟩
    | commits hro =>
        cases List.mem_singleton.mp h
        exact Or.inr ⟨hro, he⟩
    | accesses => simp at h
  · rintro (⟨hro, b, hb⟩ | ⟨hro, hc⟩)
    · exact ⟨_, hb, by simp [Event.entries, Event.access?, hro]⟩
    · exact ⟨_, hc, by simp [Event.entries, Event.access?, hro]⟩

/-- The accesses of a transaction that is not moved to its begin. -/
lemma ops_history (hro : ro T = false) : Serial.ops (history ro snap tr) T = accesses tr T := by
  induction tr with
  | nil => rfl
  | cons e tr ih =>
      have hcons : ∀ l : List Event, e :: l = [e] ++ l := fun _ => rfl
      rw [hcons, history_append, Serial.ops_append, ih, accesses_append]
      refine congrArg (· ++ _) ?_
      rw [history_singleton]
      cases hacc : e.access? with
      | some p =>
          obtain ⟨T', op⟩ := p
          have hof : e.accessOf? T = if T' = T then some op else none := by
            simp only [Event.accessOf?, hacc]
          rw [Event.entries_of_access? hacc, accesses]
          by_cases hT : T' = T
          · subst hT
            rw [if_pos rfl] at hof
            rw [List.filterMap_cons_some hof, hro]
            simp [Serial.ops, Entry.op?]
          · rw [if_neg hT] at hof
            rw [List.filterMap_cons_none hof]
            split_ifs
            · rfl
            · simp [Serial.ops, Entry.op?, hT]
      | none =>
          have hof : e.accessOf? T = none := by simp only [Event.accessOf?, hacc]
          rw [accesses, List.filterMap_cons_none hof, List.filterMap_nil]
          refine List.eq_nil_iff_forall_not_mem.mpr fun op hop => ?_
          have hmem : .access T op ∈ history ro snap [e] := by
            rw [history_singleton]
            exact Serial.mem_ops.mp hop
          rcases access_mem_history.mp hmem with ⟨hro', -⟩ | ⟨-, h⟩
          · rw [hro] at hro'
            cases hro'
          · obtain ⟨e', he', hacc'⟩ := mem_accesses.mp h
            rw [List.mem_singleton.mp he', hacc] at hacc'
            cases hacc'

/-- The transactions in `ro` write nothing. -/
structure WritesNone (ro : TranId → Bool) (snap : TranId → List (Op VarId Value))
    (tr : List Event) : Prop where
  snap : ∀ T v y, .write v y ∉ snap T
  trace : ∀ T, ro T = true → ∀ v y, .write v y ∉ accesses tr T

lemma WritesNone.of_append (h : WritesNone ro snap (tr₁ ++ tr₂)) : WritesNone ro snap tr₁ :=
  ⟨h.snap, fun T hro v y hmem => h.trace T hro v y (by simp [hmem])⟩

/-- What is written in the history was written by a transaction that is not moved. -/
lemma WritesNone.write_mem_history (h : WritesNone ro snap tr) {y : Value}
    (hmem : .access T (.write v y) ∈ history ro snap es) :
    ro T = false ∧ .write v y ∈ accesses es T :=
  (access_mem_history.mp hmem).resolve_left fun hs => h.snap T v y hs.2.1

/-- Entries without stores and commits leave the database of the history as it is. -/
lemma WritesNone.store_append (h : WritesNone ro snap (tr ++ es))
    (hc : ∀ T, .committed T ∉ es) :
    store initialDb (history ro snap (tr ++ es)) = store initialDb (history ro snap tr) := by
  funext v
  rw [history_append]
  refine Serial.store_of_uncommitted fun m T n heq y hy => ?_
  have hT : .commit T ∈ history ro snap es := heq ▸ by simp
  have hro : ro T = true := by
    rcases commit_mem_history.mp hT with ⟨hro, -⟩ | ⟨-, hT⟩
    · exact hro
    · exact absurd hT (hc T)
  have hmem : .access T (.write v y) ∈ history ro snap (tr ++ es) := by
    rw [history_append, heq]
    rw [List.mem_append] at hy ⊢
    exact hy.imp id fun hy => List.mem_append_left _ hy
  rw [(h.write_mem_history hmem).1] at hro
  cases hro

end History

namespace State

variable {o : IterOrder} {σ σ' : State} {r : Request} {es : List Event} {T : TranId}
  {ro : TranId → Bool} {snap : TranId → List (Op VarId Value)}

/-- The commits of the history lead to the database of the run. -/
def HistoryStored (σ : State) : Prop := ∀ ro snap, WritesNone ro snap σ.trace →
  store initialDb (history ro snap σ.trace) = committed σ.trace

/-- A commit stores the pending writes of its transaction. -/
lemma Outcome.dbAfter (h : Outcome o σ r es σ') (hsim : Simulates σ es σ')
    (hT : .committed T ∈ es) (ro : TranId → Bool) (snap : TranId → List (Op VarId Value)) :
    T ∈ σ.transactions ∧ σ.view.DbAfter T (committed σ'.trace) ∧
      history ro snap es = if ro T then [] else [.commit T] := by
  have hlive := h.actor_live hT rfl
  obtain ⟨ts, rfl⟩ := h.committed_mem hT
  have hrun := hsim.steps
  cases h with
  | unavailable ha => cases ha
  | waitsForLock ha => cases ha
  | commitFails => simp at hT
  | @commits ts T t σ₁ =>
      have hno : actions ((stores o t).map (storeEvent T ts)) = [] := by
        rw [actions, List.filterMap_eq_nil_iff]
        intro e he
        obtain ⟨p, -, rfl⟩ := List.mem_map.mp he
        rfl
      have hnil : history ro snap ((stores o t).map (storeEvent T ts)) = [] := by
        rw [history, List.flatMap_eq_nil_iff]
        intro e he
        obtain ⟨p, -, rfl⟩ := List.mem_map.mp he
        rfl
      refine ⟨hlive, ?_, ?_⟩
      · rw [actions_append, hno, List.nil_append] at hrun
        generalize hv : (σ₁.emit (.committed T)).view = c at hrun
        rw [show committed (σ₁.emit (.committed T)).trace = c.db by rw [← hv]; rfl]
        cases hrun.of_single with
        | commit _ hdb => exact hdb
      · rw [history_append, hnil, List.nil_append, history, List.flatMap_singleton]
        rfl

/-- After a commit a variable has the value that its transaction wrote last. -/
lemma Outcome.committed_eq (h : Outcome o σ r es σ') (hsim : Simulates σ es σ')
    (hw : σ.WritesPending) (hT : .committed T ∈ es) (v : VarId) :
    committed σ'.trace v = (lastWrite (accesses σ.trace T) v).getD (committed σ.trace v) := by
  obtain ⟨hlive, hdb, -⟩ := h.dbAfter hsim hT (fun _ => false) fun _ => []
  obtain ⟨h1, h2⟩ := hdb v
  cases hl : lastWrite (accesses σ.trace T) v with
  | some x =>
      obtain ⟨s, hs⟩ := (hw T hlive v x).mp hl
      exact h1 s x hs
  | none =>
      refine h2 fun s => Option.eq_none_iff_forall_ne_some.mpr fun x hx => ?_
      rw [(hw T hlive v x).mpr ⟨s, hx⟩] at hl
      cases hl

lemma HistoryStored.exec (h : σ.HistoryStored) (hw : σ.WritesPending)
    (hout : Outcome o σ r es σ') (hsim : Simulates σ es σ') : σ'.HistoryStored := by
  intro ro snap hro
  rw [hout.trace] at hro ⊢
  have hold := h ro snap hro.of_append
  by_cases hc : ∃ T, .committed T ∈ es
  · obtain ⟨T, hT⟩ := hc
    obtain ⟨-, -, hes⟩ := hout.dbAfter hsim hT ro snap
    funext v
    have hval := hout.committed_eq hsim hw hT v
    rw [hout.trace] at hval
    rw [hval, history_append, hes]
    cases hT : ro T with
    | false =>
        rw [if_neg (by simp), Serial.store_commit, hold, ops_history hT, Serial.runOps_apply]
    | true =>
        rw [if_pos rfl, List.append_nil, hold,
          Serial.lastWrite_of_unwritten (hro.of_append.trace T hT v), Option.getD_none]
  · push Not at hc
    rw [hro.store_append hc, hold]
    have hno : ∀ T s v x ts, .installs T s v x ts ∉ es := fun T s v x ts hi =>
      hc T (hout.committed_of_installs hi)
    exact (committed_append_of_ne hno _).symm

end State

/-- **The history of a run** leads to its database. -/
theorem stored_invariant (C : Request → State → Prop) : HistoryInvariant C fun l σ =>
    (State.Created (Begun l) σ ∧ State.Accessing σ ∧ State.WritesPending σ) ∧
      State.HistoryStored σ where
  initial := ⟨(accessing_invariant C).initial, fun ro snap _ => rfl⟩
  congr h hs ht htr := by
    refine ⟨(accessing_invariant C).congr h.1 hs ht htr, fun ro snap hro => ?_⟩
    rw [htr] at hro ⊢
    exact h.2 ro snap hro
  abort hg h ha := by
    refine ⟨(accessing_invariant C).abort hg h.1 ha, fun ro snap hro => ?_⟩
    rw [(State.gone_abortTransaction ha).2.2] at hro ⊢
    rw [hro.store_append (by simp), h.2 ro snap hro.of_append]
    exact (committed_append_of_ne (by simp) _).symm
  exec ha he hR h hC hx hout := by
    have hsim := hout.simulates_of_fresh hR.good fun hb hT => (he.fresh hb).1 (hR.known.live hT)
    exact ⟨(accessing_invariant C).exec ha he hR h.1 hC hx hout,
      h.2.exec h.1.2.2 hout hsim⟩
  mono hx h := ⟨(accessing_invariant C).mono hx h.1, h.2⟩

end RepCRec
