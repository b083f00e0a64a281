import RepCRec.Engine.Program
import RepCRec.Guarantees.Dump
import RepCRec.Guarantees.Stuck

/-!
The program is the run of the instructions in its text, with the drained queue and the dump of what
is stored then (`executeAdvancedDatabase_eq_ok`). The loop over the lines feeds the instructions of
the lines (`executeLines_eq_ok`), the loop after it is the one that drains the queue
(`drainRounds_eq_ok`), and the last instruction only writes: deadlocks that are resolved before it
leave the stored values.
-/

namespace RepCRec

open Container (IStream StringFault bind_eq_ok lines ok_bind)
open Container.IStream (Reads)
open Container.StdString (startsWith)

/-- The instructions of lines, without the dumps. -/
def instructionsOf (L : List (List Char)) : Except StringFault (List Instruction) :=
  (L.filter fun l => !startsWith l "dump".toList).mapM Instruction.parse

/-- The run of instructions whose timestamps follow `currTimestamp`. -/
def feedsAfter (sch : Timestamp → Schedule) : Timestamp → List Instruction → List Feed
  | _, [] => []
  | currTimestamp, insr :: insrs =>
      ⟨insr, currTimestamp + 1, sch (currTimestamp + 1)⟩ :: feedsAfter sch (currTimestamp + 1) insrs

/-! ### The lines -/

lemma mapError_eq_ok {α ε ε' : Type} {x : Except ε α} {f : ε → ε'} {a : α} :
    x.mapError f = .ok a ↔ x = .ok a := by
  cases x <;> simp [Except.mapError]

section Lines

variable {sch : Timestamp → Schedule} {insrFile : IStream} {insr : List Char}
  {L : List (List Char)} {b : Bool} {currTimestamp ts : Timestamp} {σ σ' : State}

lemma instructionsOf_cons_dump (h : startsWith insr "dump".toList = true) :
    instructionsOf (insr :: L) = instructionsOf L := by
  rw [instructionsOf, List.filter_cons_of_neg (by rw [h]; decide), instructionsOf]

lemma instructionsOf_cons_eq_ok (h : startsWith insr "dump".toList = false)
    {insrs : List Instruction} : instructionsOf (insr :: L) = .ok insrs ↔
      ∃ i insrs', Instruction.parse insr = .ok i ∧ instructionsOf L = .ok insrs' ∧
        insrs = i :: insrs' := by
  rw [instructionsOf, List.filter_cons_of_pos (by rw [h]; decide), List.mapM_cons, bind_eq_ok]
  refine exists_congr fun i => ?_
  rw [exists_and_left]
  refine and_congr_right fun _ => ?_
  rw [bind_eq_ok]
  refine exists_congr fun insrs' => and_congr_right fun _ => ?_
  exact ⟨fun h => by cases h; rfl, fun h => by rw [h]; rfl⟩

/-- No line is left. -/
lemma executeLines_nil (hr : Reads insrFile [] b) :
    executeLines sch insrFile insr currTimestamp σ = .ok (currTimestamp, σ) := by
  obtain ⟨st, hl⟩ := hr.getline_nil insr
  rw [executeLines]
  split
  · rfl
  · next h' =>
    rw [hl] at h'
    cases h'

/-- One turn of the loop over the lines. -/
lemma executeLines_cons (sch : Timestamp → Schedule) (insr : List Char) (currTimestamp : Timestamp)
    (σ : State) {l : List Char} (hr : Reads insrFile (l :: L) b) :
    ∃ insrFile', Reads insrFile' L b ∧ executeLines sch insrFile insr currTimestamp σ =
      (if startsWith l "dump".toList then executeLines sch insrFile' l currTimestamp σ
      else do
        let instruction ← (Instruction.parse l).mapError .text
        let σ' ← (σ.feed ⟨instruction, currTimestamp + 1, sch (currTimestamp + 1)⟩).mapError .engine
        executeLines sch insrFile' l (currTimestamp + 1) σ') := by
  obtain ⟨st, hl, hst⟩ := hr.getline_cons insr
  refine ⟨st, hst, ?_⟩
  rw [executeLines]
  split
  · next h' =>
    rw [hl] at h'
    cases h'
  · next h' =>
    rw [hl] at h'
    cases h'
    rfl

/-- **The loop over the lines** feeds their instructions. -/
theorem executeLines_eq_ok (hr : Reads insrFile L b) :
    executeLines sch insrFile insr currTimestamp σ = .ok (ts, σ') ↔ ∃ insrs,
      instructionsOf L = .ok insrs ∧
        (feedsAfter sch currTimestamp insrs).foldlM State.feed σ = .ok σ' ∧
        ts = currTimestamp + insrs.length := by
  induction L generalizing insrFile insr currTimestamp σ with
  | nil =>
      rw [executeLines_nil hr]
      constructor
      · rintro ⟨⟩
        exact ⟨[], rfl, rfl, (add_zero _).symm⟩
      · rintro ⟨insrs, ⟨⟩, ⟨⟩, rfl⟩
        simp
  | cons l L ih =>
      obtain ⟨insrFile', hr', heq⟩ := executeLines_cons sch insr currTimestamp σ hr
      rw [heq]
      cases hd : startsWith l "dump".toList with
      | true => rw [if_pos rfl, ih hr', instructionsOf_cons_dump hd]
      | false =>
          rw [if_neg Bool.false_ne_true, bind_eq_ok]
          constructor
          · rintro ⟨i, hi, h⟩
            rw [bind_eq_ok] at h
            obtain ⟨σ₁, h1, h⟩ := h
            obtain ⟨insrs, hinsrs, hrun, rfl⟩ := (ih hr').mp h
            refine ⟨i :: insrs, (instructionsOf_cons_eq_ok hd).mpr
              ⟨i, insrs, mapError_eq_ok.mp hi, hinsrs, rfl⟩, ?_, ?_⟩
            · rw [feedsAfter, List.foldlM_cons, bind_eq_ok]
              exact ⟨σ₁, mapError_eq_ok.mp h1, hrun⟩
            · rw [List.length_cons, Nat.cast_succ, add_assoc, add_comm 1]
          · rintro ⟨insrs, hinsrs, hrun, rfl⟩
            obtain ⟨i, insrs', hi, hinsrs', rfl⟩ := (instructionsOf_cons_eq_ok hd).mp hinsrs
            rw [feedsAfter, List.foldlM_cons, bind_eq_ok] at hrun
            obtain ⟨σ₁, h1, hrun⟩ := hrun
            refine ⟨i, mapError_eq_ok.mpr hi, ?_⟩
            rw [bind_eq_ok]
            refine ⟨σ₁, mapError_eq_ok.mpr h1, (ih hr').mpr ⟨insrs', hinsrs', hrun, ?_⟩⟩
            rw [List.length_cons, Nat.cast_succ, add_assoc, add_comm 1]

end Lines

/-! ### The queue -/

/-- **The loop after the lines** is the one that drains the queue. -/
theorem drainRounds_eq_ok {sch : ℕ → Schedule} {n : ℕ} (currTimestamp : Timestamp) {σ σ' : State} :
    (∃ ts, drainRounds sch n currTimestamp σ = .ok (some (ts, σ'))) ↔
      State.drain sch n σ = .ok (true, σ') := by
  induction n generalizing sch currTimestamp σ with
  | zero =>
      rw [drainRounds, State.drain]
      cases σ.isAllInstructionsFinished <;> simp
  | succ n ih =>
      rw [drainRounds, State.drain]
      cases σ.isAllInstructionsFinished with
      | true => simp
      | false =>
          rw [if_neg Bool.false_ne_true, if_neg Bool.false_ne_true]
          cases State.executeInstructions (sch 0) σ with
          | error e => simp [bind, Except.bind]
          | ok σ₁ => exact ih _

namespace State

variable {σ τ : State}

/-- The queue is empty when the loop has ended. -/
lemma finished_of_drain {sch : ℕ → Schedule} {n : ℕ} (h : drain sch n σ = .ok (true, τ)) :
    τ.isAllInstructionsFinished = true := by
  induction n generalizing sch σ with
  | zero =>
      rw [drain, Except.ok.injEq, Prod.mk.injEq] at h
      exact h.2 ▸ h.1
  | succ n ih =>
      rw [drain] at h
      split_ifs at h with hf
      · cases h
        exact hf
      · obtain ⟨σ₁, -, h⟩ := bind_eq_ok.mp h
        exact ih h

/-! ### The dump -/

/-- Resolving the deadlocks leaves the stored values. -/
lemma value_resolved {sch : Schedule} (h : σ.resolved sch = .ok τ) (s : SiteId) (v : VarId) :
    (τ.getVariable s v).value = (σ.getVariable s v).value := by
  have hk : Settled fun τ => ∀ s v, (τ.getVariable s v).value = (σ.getVariable s v).value := {
    graph := fun h _ => h
    abort := fun h ha s v => ((gone_abortTransaction ha).1.value s v).trans (h s v)
    request := fun h => h }
  exact (hk.resolveDeadlocks (fun _ _ => rfl) h).1 s v

/-- The walk over an empty queue does nothing. -/
lemma serveBlocked_of_empty {sch : Schedule} (hq : σ.blockedTransactionsQueue.keys = []) :
    serveBlocked sch σ = .ok { σ with request := none } := by
  rw [serveBlocked, hq, (sch.walk.visit_eq_nil).mpr rfl, walkBlocked, ok_bind]
  dsimp only
  rw [(sch.finish.visit_eq_nil).mpr rfl]
  rfl

/-- A call with an empty queue that executes its request writes what this request writes. -/
lemma writes_of_called {sch : Schedule} {r : Request} {σ₁ : State}
    (hc : CalledDirectly sch σ r τ) (hb : τ.isBlocked r.transactionId = false)
    (hx : τ.exec (sch.exec r.timestamp) r = .ok σ₁) (hq : σ₁.blockedTransactionsQueue.keys = []) :
    (∃ σ', executeInstructions sch σ = .ok σ') ∧ σ.writes sch = r.writes τ := by
  have hstart : WalkStarts sch σ σ₁ := Or.inr ⟨r, τ, hc, hb, hx⟩
  have hnil : sch.walk.visit σ₁.blockedTransactionsQueue.keys = [] :=
    sch.walk.visit_eq_nil.mpr hq
  constructor
  · exact ⟨_, (executeInstructions_of_walkStarts hstart).trans (serveBlocked_of_empty hq)⟩
  · rw [writes, callsDirectly_of_called hc, callsFromQueue, walkStart_of_walkStarts hstart]
    dsimp only
    rw [hnil, callsInWalk, List.append_nil, List.flatMap_singleton]

end State

/-- The last instruction succeeds and writes the stored values, when the queue is empty. -/
lemma writes_dump {l : List Feed} {σ : State} (ha : Admissible l) (hno : ¬Begun l (-1))
    (hr : Reaches l σ) (hf : σ.isAllInstructionsFinished = true) (ts : Timestamp) (sch : Schedule) :
    (do
      let instruction ← (Instruction.parse "dump()".toList).mapError .text
      let σ ← (State.addInstruction instruction ts σ).mapError .engine
      let _ ← (State.executeInstructions sch σ).mapError .engine
      return some (σ.writes sch) : Except ProgramFault (Option (List Char))) =
        .ok (some (SiteManager.dump true σ.sites)) := by
  have hdump : Instruction.parse "dump()".toList = .ok .dump := by decide +kernel
  have hadd : State.addInstruction .dump ts σ = .ok { σ with request := some (.dump ts) } := rfl
  have hlist := (listed_invariant fun _ _ => True).invariant
  have hlink := (linked_invariant fun _ _ => True).invariant
  have hknown := known_invariant fun _ _ => True
  obtain ⟨⟨hR, -⟩, hL⟩ := (hlist.settled l ha).request (q := some (.dump ts))
    (hlist.reaches ha (by simp) hr).1
  obtain ⟨-, hK⟩ := (hlink.settled l ha).request (q := some (.dump ts))
    (hlink.reaches ha (by simp) hr).1
  obtain ⟨τ, hτ, -⟩ := State.Resolving.resolved ⟨hR, hL, hK⟩ sch
  have hthin := State.Thinned.resolved hτ
  obtain ⟨hB, -⟩ := (hknown.settled l ha).resolveDeadlocks
    ((hknown.settled l ha).request (hknown.reaches ha (by simp) hr).1) hτ
  have hb : τ.isBlocked (-1) = false := by
    rw [← Bool.not_eq_true]
    exact fun hb => hno (hB.isBlocked hb)
  have hq : τ.blockedTransactionsQueue.keys = [] := by
    have hσ : σ.blockedTransactionsQueue.keys = [] := by
      rw [State.isAllInstructionsFinished, Bool.and_eq_true, List.isEmpty_iff] at hf
      exact hf.2
    refine List.eq_nil_iff_forall_not_mem.mpr fun T hT => ?_
    have hmem := (hthin.queue (AList.mem_keys.mpr hT)).1
    exact absurd (hσ ▸ AList.mem_keys.mp hmem) List.not_mem_nil
  have hc : State.CalledDirectly sch { σ with request := some (.dump ts) } (.dump ts) τ :=
    ⟨hτ, State.request_resolved hτ, rfl, fun h => absurd (hb.symm.trans h) Bool.false_ne_true⟩
  have hexec : τ.exec (sch.exec ts) (.dump ts) = .ok (τ.emit .dumped) := rfl
  obtain ⟨⟨σ', hx⟩, hw⟩ := State.writes_of_called hc hb hexec hq
  have htext : SiteManager.dump true τ.sites = SiteManager.dump true σ.sites :=
    SiteManager.dump_eq_iff.mpr fun v s _ => State.value_resolved hτ s v
  rw [mapError_eq_ok.mpr hdump, ok_bind, mapError_eq_ok.mpr hadd, ok_bind, mapError_eq_ok.mpr hx,
    ok_bind, hw, Request.writes, htext]
  rfl

/-! ### The program -/

/-- The run of the instructions of a text. -/
def Schedules.feeds (sch : Schedules) (insrs : List Instruction) : List Feed :=
  feedsAfter sch.line startTimestamp insrs

/-- **The program** runs the instructions of the text, drains the queue, and writes the dump of what
is stored then. The last instruction succeeds, and the deadlocks that are resolved before it do not
show in the file. -/
theorem executeAdvancedDatabase_eq_ok {sch : Schedules} {n : ℕ} {text out : List Char}
    {insrs : List Instruction} (hp : instructionsOf (lines text) = .ok insrs)
    (ha : Admissible (sch.feeds insrs)) (hno : ¬Begun (sch.feeds insrs) (-1)) :
    executeAdvancedDatabase sch n text = .ok (some out) ↔ ∃ σ₀ σ,
      run (sch.feeds insrs) = .ok σ₀ ∧ State.drain sch.round n σ₀ = .ok (true, σ) ∧
        out = SiteManager.dump true σ.sites := by
  have hlines : ∀ {ts σ}, executeLines sch.line { rest := text } [] startTimestamp State.initial =
      .ok (ts, σ) ↔ run (sch.feeds insrs) = .ok σ ∧ ts = startTimestamp + insrs.length := by
    intro ts σ
    rw [executeLines_eq_ok (.start text)]
    refine ⟨fun ⟨insrs', hp', h⟩ => ?_, fun h => ⟨insrs, hp, h⟩⟩
    rw [hp] at hp'
    cases hp'
    exact h
  rw [executeAdvancedDatabase, bind_eq_ok]
  constructor
  · rintro ⟨⟨ts, σ₀⟩, h0, h⟩
    obtain ⟨hrun, -⟩ := hlines.mp h0
    rw [bind_eq_ok] at h
    obtain ⟨d, hd, h⟩ := h
    cases d with
    | none => cases h
    | some p =>
        obtain ⟨ts', σ⟩ := p
        have hdrain := (drainRounds_eq_ok ts).mp ⟨ts', mapError_eq_ok.mp hd⟩
        have hlast := writes_dump ha hno (reaches_drain (.run hrun) hdrain)
          (State.finished_of_drain hdrain) ts' sch.last
        cases hlast.symm.trans h
        exact ⟨σ₀, σ, hrun, hdrain, rfl⟩
  · rintro ⟨σ₀, σ, hrun, hdrain, rfl⟩
    obtain ⟨ts, hd⟩ := (drainRounds_eq_ok (startTimestamp + insrs.length)).mpr hdrain
    refine ⟨(startTimestamp + insrs.length, σ₀), hlines.mpr ⟨hrun, rfl⟩, ?_⟩
    rw [bind_eq_ok]
    exact ⟨some (ts, σ), mapError_eq_ok.mpr hd, writes_dump ha hno
      (reaches_drain (.run hrun) hdrain) (State.finished_of_drain hdrain) ts sch.last⟩

end RepCRec
