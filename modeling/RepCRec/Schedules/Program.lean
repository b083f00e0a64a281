import RepCRec.Guarantees.Program
import RepCRec.Schedules.FailureFree

/-!
The file that the program writes. It is the dump of the sites that the log of the run leads to
(`program_replay`). For a text without site failures it is the dump of the database of a serial
execution of the committed transactions, whatever the order in which the containers are visited
(`program_serializable`).
-/

namespace RepCRec

open Container (lines)
open Serial (runOps Legal)

/-- Sites all of whose copies have the values of a database. -/
def SiteManager.holding (db : VarId → Value) : SiteId → Site := fun _ =>
  { Site.initial with vars := fun v => { Variable.initial v with value := db v } }

/-- The dump of a database. -/
def dumpOf (db : VarId → Value) : List Char := SiteManager.dump true (SiteManager.holding db)

lemma dump_eq_dumpOf {S : SiteId → Site} {db : VarId → Value}
    (h : ∀ s v, s ∈ copies v → ((S s).vars v).value = db v) :
    SiteManager.dump true S = dumpOf db :=
  SiteManager.dump_eq_iff.mpr fun v s hs => h s v hs

section Program

variable {sch : Schedules} {n : ℕ} {text out : List Char} {insrs : List Instruction}

lemma insr_of_mem_feedsAfter {sch : Timestamp → Schedule} {ts : Timestamp} {x : Feed}
    (h : x ∈ feedsAfter sch ts insrs) : x.insr ∈ insrs := by
  induction insrs generalizing ts with
  | nil => cases h
  | cons i insrs ih =>
      rcases List.mem_cons.mp h with rfl | h
      · exact List.mem_cons_self
      · exact List.mem_cons_of_mem i (ih h)

/-- **The file is the dump of a replay**, for an admissible text that begins no transaction `-1`.
The program returns a file exactly when the run of the instructions succeeds and the queue is
drained, and the file is the dump of the sites that the log of the run leads to. -/
theorem program_replay (hp : instructionsOf (lines text) = .ok insrs)
    (ha : Admissible (sch.feeds insrs)) (hno : ¬Begun (sch.feeds insrs) (-1)) :
    executeAdvancedDatabase sch n text = .ok (some out) ↔ ∃ σ₀ σ,
      run (sch.feeds insrs) = .ok σ₀ ∧ State.drain sch.round n σ₀ = .ok (true, σ) ∧
        out = SiteManager.dump true (redo σ.trace) := by
  rw [executeAdvancedDatabase_eq_ok hp ha hno]
  refine exists_congr fun σ₀ => exists_congr fun σ => and_congr_right fun hrun =>
    and_congr_right fun hdrain => ?_
  rw [sites_of_meets ha (Or.inl (reaches_drain (.run hrun) hdrain))]

/-- The site of `x1` fails after the second transaction has written there. -/
def failingText : List Char :=
  "begin(T1)\nW(T1,x2,7)\nbegin(T2)\nend(T1)\nW(T2,x1,5)\nfail(2)\nend(T2)\n".toList

def failingInstructions : List Instruction :=
  [.begin 1, .write 1 2 7, .begin 2, .finish 1, .write 2 1 5, .fail 2, .finish 2]

theorem program_replay_failingText : ∃ σ : State, .aborted 2 ∈ σ.trace ∧
    executeAdvancedDatabase Schedules.stored 0 failingText =
      .ok (some (SiteManager.dump true (redo σ.trace))) := by
  obtain ⟨σ, hr, hf⟩ := exists_ok_of_eval (x := run (Schedules.stored.feeds failingInstructions))
    (f := fun σ => (σ.isAllInstructionsFinished, decide (.aborted 2 ∈ σ.trace))) (a := (true, true))
    (by decide +kernel)
  rw [Prod.mk.injEq, decide_eq_true_iff] at hf
  have hp : instructionsOf (lines failingText) = .ok failingInstructions := by decide +kernel
  have hno : ¬Begun (Schedules.stored.feeds failingInstructions) (-1) := by
    simp [Begun, failingInstructions, Schedules.feeds, feedsAfter, Instruction.begun?]
  refine ⟨σ, hf.2, (program_replay hp (by decide +kernel) hno).mpr ⟨σ, σ, hr, ?_, rfl⟩⟩
  rw [State.drain, hf.1]

/-- **The file is the dump of a serial execution**, if the admissible text fails no site and begins
no transaction `-1`, no write that is granted in its run is lost, its read-only transactions write
nothing, and no end waits in the queue when there are such transactions. -/
theorem program_serializable (hp : instructionsOf (lines text) = .ok insrs)
    (ha : Admissible (sch.feeds insrs)) (hno : ¬Begun (sch.feeds insrs) (-1))
    (hfail : ∀ s, .fail s ∉ insrs)
    (hkept : ∀ σ₀ σ, run (sch.feeds insrs) = .ok σ₀ →
      State.drain sch.round n σ₀ = .ok (true, σ) → WritesKept σ.trace)
    (hro : ∀ T, .beginRO T ∈ insrs → (∀ n x, .write T n x ∉ insrs) ∧ ∀ ts T' τ,
      CalledDuring (sch.feeds insrs) (.finish ts T') τ → .finish ts T' ∉ τ.blockedRequests T')
    (h : executeAdvancedDatabase sch n text = .ok (some out)) :
    ∃ σ₀ σ, run (sch.feeds insrs) = .ok σ₀ ∧ State.drain sch.round n σ₀ = .ok (true, σ) ∧
      Legal initialDb (serialExecution σ.trace) ∧
      out = dumpOf (runOps (serialExecution σ.trace) initialDb) := by
  obtain ⟨σ₀, σ, hrun, hdrain, rfl⟩ := (executeAdvancedDatabase_eq_ok hp ha hno).mp h
  have hr : Reaches (sch.feeds insrs) σ := reaches_drain (.run hrun) hdrain
  have hR := reached_reaches ha hr
  have hfail' : ∀ x ∈ sch.feeds insrs, ∀ s, x.insr ≠ .fail s :=
    fun x hx s heq => hfail s (heq ▸ insr_of_mem_feedsAfter hx)
  have hf := not_failed hfail' (traced_reaches ha hr)
  obtain ⟨hlegal, hdb⟩ := legal_of_unfailed ha hr hfail' (hkept σ₀ σ hrun hdrain)
    fun x hx T hT => by
      obtain ⟨hwrite, hend⟩ := hro T (hT ▸ insr_of_mem_feedsAfter hx)
      exact ⟨fun y hy n z heq => hwrite n z (heq ▸ insr_of_mem_feedsAfter hy), hend⟩
  refine ⟨σ₀, σ, hrun, hdrain, hlegal, dump_eq_dumpOf fun s v hs => ?_⟩
  rw [hdb]
  exact hR.good.inv.one_copy hs ((hR.unfailed hf).readable s v)

/-- The second transaction waits for a lock of the first, and its end waits in the queue. -/
def waitingText : List Char :=
  "begin(T1)\nbegin(T2)\nW(T1,x2,7)\nW(T2,x2,8)\nend(T2)\ndump()\nend(T1)\n".toList

def waitingInstructions : List Instruction :=
  [.begin 1, .begin 2, .write 1 2 7, .write 2 2 8, .finish 2, .finish 1]

theorem program_serializable_waitingText : ∃ out σ₀ σ,
    executeAdvancedDatabase Schedules.stored 1 waitingText = .ok (some out) ∧
      run (Schedules.stored.feeds waitingInstructions) = .ok σ₀ ∧
      State.drain Schedules.stored.round 1 σ₀ = .ok (true, σ) ∧
      Legal initialDb (serialExecution σ.trace) ∧
      out = dumpOf (runOps (serialExecution σ.trace) initialDb) := by
  have hp : instructionsOf (lines waitingText) = .ok waitingInstructions := by decide +kernel
  have ha : Admissible (Schedules.stored.feeds waitingInstructions) := by decide +kernel
  have hno : ¬Begun (Schedules.stored.feeds waitingInstructions) (-1) := by
    simp [Begun, waitingInstructions, Schedules.feeds, feedsAfter, Instruction.begun?]
  obtain ⟨σ₀, hr, -⟩ := exists_ok_of_eval
    (x := run (Schedules.stored.feeds waitingInstructions)) (f := fun _ => ()) (a := ())
    (by decide +kernel)
  obtain ⟨⟨b, σ₁⟩, hd, hf⟩ := exists_ok_of_eval
    (x := run (Schedules.stored.feeds waitingInstructions) >>= State.drain Schedules.stored.round 1)
    (f := fun p => (p.1, decide (WritesKept p.2.trace))) (a := (true, true)) (by decide +kernel)
  rw [hr, Container.ok_bind] at hd
  rw [Prod.mk.injEq, decide_eq_true_iff] at hf
  obtain ⟨rfl, hkept⟩ : b = true ∧ WritesKept σ₁.trace := hf
  have h := (executeAdvancedDatabase_eq_ok hp ha hno).mpr ⟨σ₀, σ₁, hr, hd, rfl⟩
  have hkept' : ∀ σ₂ σ₃, run (Schedules.stored.feeds waitingInstructions) = .ok σ₂ →
      State.drain Schedules.stored.round 1 σ₂ = .ok (true, σ₃) → WritesKept σ₃.trace := by
    intro σ₂ σ₃ hr' hd'
    cases hr.symm.trans hr'
    cases hd.symm.trans hd'
    exact hkept
  obtain ⟨σ₂, σ, hr', hd', hlegal, hout⟩ := program_serializable hp ha hno
    (by simp [waitingInstructions]) hkept' (by simp [waitingInstructions]) h
  exact ⟨_, σ₂, σ, h, hr', hd', hlegal, hout⟩

end Program

end RepCRec
