import RepCRec.Refinement.Stamps
import RepCRec.Refinement.Unfailed

/-!
The trace as a redo log. Executing its entries on the sites, as they are at the start of a run,
leads to the sites of the run: their availability, the values and the versions of all copies, and
the owners of the locks (`redo_invariant`).
-/

namespace RepCRec

open AvailableCopies (Config Action Step Steps)
open Container (IterOrder assignAll)

/-- Changes the copies of `v` at the sites in `L`. -/
def changeCopies (L : List SiteId) (v : VarId) (f : Variable → Variable) (sites : SiteId → Site) :
    SiteId → Site := fun s =>
  if s ∈ L then { sites s with vars := Function.update (sites s).vars v (f ((sites s).vars v)) }
  else sites s

/-- What an entry of the trace does to the sites. -/
def Event.redo (sites : SiteId → Site) : Event → SiteId → Site
  | .sharedLock T v L => changeCopies L v (fun x => x.addSharedTransaction T) sites
  | .writeLock T v L _ =>
      changeCopies L v (fun x => (x.removeSharedOwner T).setExclusiveTransaction T) sites
  | .installs _ s v x ts =>
      Function.update sites s (((sites s).assignVar v x ts).setReadAvailable v)
  | .committed T | .aborted T => fun s =>
      { sites s with vars := fun v => ((sites s).vars v).releaseOwner T }
  | .failed s => Function.update sites s (sites s).setUnavailable
  | .recovered s =>
      Function.update sites s ((State.uniqueVars s).foldl Site.setReadAvailable
        (sites s).setWriteAvailable)
  | _ => sites

/-- The sites after the entries of the trace. -/
def redo (trace : List Event) : SiteId → Site := trace.foldl Event.redo fun _ => Site.initial

/-- The site is up after the entries of the trace. -/
def siteUp (trace : List Event) (s : SiteId) : Bool := (redo trace s).writeAvailable

/-- The copy is readable after the entries of the trace. -/
def copyReadable (trace : List Event) (s : SiteId) (v : VarId) : Bool :=
  (redo trace s).readAvailable v

section Redo

variable {S : SiteId → Site} {c c' : Config SiteId VarId TranId Value} {tr es : List Event}
  {e : Event} {T : TranId} {s s' : SiteId} {v : VarId} {L : List SiteId} {f : Variable → Variable}

@[simp] lemma redo_append : redo (tr ++ es) = es.foldl Event.redo (redo tr) := by simp [redo]

lemma foldl_setReadAvailable (l : List VarId) (st : Site) :
    (l.foldl Site.setReadAvailable st).writeAvailable = st.writeAvailable ∧
    (l.foldl Site.setReadAvailable st).vars = st.vars ∧
    ∀ v, (l.foldl Site.setReadAvailable st).readAvailable v = true ↔
      st.readAvailable v = true ∨ v ∈ l := by
  induction l generalizing st with
  | nil => simp
  | cons w l ih =>
      obtain ⟨h1, h2, h3⟩ := ih (st.setReadAvailable w)
      refine ⟨h1, h2, fun v => (h3 v).trans ?_⟩
      by_cases hv : v = w
      · subst hv
        simp [Site.setReadAvailable]
      · simp [Site.setReadAvailable, hv]

lemma vars_changeCopies : (changeCopies L v f S s).vars w =
    if s ∈ L ∧ w = v then f ((S s).vars w) else (S s).vars w := by
  rw [changeCopies]
  by_cases hs : s ∈ L
  · rw [if_pos hs]
    by_cases hw : w = v
    · subst hw
      simp [hs]
    · simp [hs, hw]
  · simp [hs]

lemma writeAvailable_changeCopies :
    (changeCopies L v f S s).writeAvailable = (S s).writeAvailable := by
  rw [changeCopies]
  split_ifs <;> rfl

lemma readAvailable_changeCopies :
    (changeCopies L v f S s).readAvailable = (S s).readAvailable := by
  rw [changeCopies]
  split_ifs <;> rfl

lemma vars_redo_installs {x : Value} {ts : Timestamp} {w : VarId} :
    (Event.redo S (.installs T s v x ts) s').vars w =
      if s' = s ∧ w = v then ((S s').vars w).setValue x ts else (S s').vars w := by
  rw [Event.redo]
  by_cases hs : s' = s
  · subst hs
    by_cases hw : w = v
    · subst hw
      simp [Site.setReadAvailable, Site.assignVar]
    · simp [Site.setReadAvailable, Site.assignVar, hw]
  · simp [hs]

/-! ### Locks -/

/-- The sites have the locks and the availability of the configuration. -/
structure Locked (S : SiteId → Site) (c : Config SiteId VarId TranId Value) : Prop where
  up : ∀ s, (S s).writeAvailable = true ↔ c.up s
  excl : ∀ T s v, ((S s).vars v).exclusiveLockOwner = some T ↔ c.excl T s v
  shared : ∀ T s v, T ∈ ((S s).vars v).sharedLockOwners ↔ c.shared T s v
  nodup : ∀ s v, ((S s).vars v).sharedLockOwners.Nodup

namespace Locked

/-- No locks are changed. -/
lemma of_same (h : Locked S c) {S' : SiteId → Site}
    (hup : ∀ s, (S' s).writeAvailable = true ↔ c'.up s)
    (hx : ∀ s v, ((S' s).vars v).exclusiveLockOwner = ((S s).vars v).exclusiveLockOwner)
    (hs : ∀ s v, ((S' s).vars v).sharedLockOwners = ((S s).vars v).sharedLockOwners)
    (hxc : c'.excl = c.excl) (hsc : c'.shared = c.shared) : Locked S' c' :=
  ⟨hup, fun T s v => by rw [hx, hxc]; exact h.excl T s v,
    fun T s v => by rw [hs, hsc]; exact h.shared T s v, fun s v => by rw [hs]; exact h.nodup s v⟩

/-- The availability of a site is changed. -/
lemma of_site (h : Locked S c) {s : SiteId} {st : Site} (hv : st.vars = (S s).vars)
    (hup : ∀ s', (Function.update S s st s').writeAvailable = true ↔ c'.up s')
    (hxc : c'.excl = c.excl) (hsc : c'.shared = c.shared) :
    Locked (Function.update S s st) c' := by
  have hvars : ∀ s', (Function.update S s st s').vars = (S s').vars := by
    intro s'
    by_cases hs : s' = s
    · subst hs
      rw [Function.update_self, hv]
    · rw [Function.update_of_ne hs]
  exact h.of_same hup (fun s' v => by rw [hvars]) (fun s' v => by rw [hvars]) hxc hsc

/-- The end of a transaction takes its locks. -/
lemma finish (h : Locked S c) (T : TranId) {d : Config SiteId VarId TranId Value}
    (hup : d.up = c.up) (hx : d.excl = c.excl) (hs : d.shared = c.shared) :
    Locked (fun s => { S s with vars := fun v => ((S s).vars v).releaseOwner T }) (d.finish T) where
  up s := (h.up s).trans (iff_of_eq (congrFun hup s).symm)
  excl T' s v := by
    have hu := Variable.unlocked_releaseOwner ((S s).vars v) T
    have hiff := h.excl T' s v
    show _ ↔ d.excl T' s v ∧ T' ≠ T
    rw [hx, ← hiff]
    refine ⟨fun h' => ⟨hu.excl T' h', ?_⟩, fun h' => hu.excl_other T' h'.2 h'.1⟩
    rintro rfl
    exact Variable.exclusiveLockOwner_releaseOwner_ne _ T' h'
  shared T' s v := by
    have hu := Variable.unlocked_releaseOwner ((S s).vars v) T
    have hiff := h.shared T' s v
    show _ ↔ d.shared T' s v ∧ T' ≠ T
    rw [hs, ← hiff]
    refine ⟨fun h' => ⟨hu.shared T' h', ?_⟩, fun h' => hu.shared_other T' h'.2 h'.1⟩
    rintro rfl
    exact Variable.notMem_releaseOwner T' (h.nodup s v) h'
  nodup s v := (Variable.unlocked_releaseOwner ((S s).vars v) T).nodup (h.nodup s v)

lemma lockShared (h : Locked S c) (T : TranId) (v : VarId) (L : List SiteId) :
    Locked (changeCopies L v (fun x => x.addSharedTransaction T) S)
      (c.lockShared T v {s | s ∈ L}) where
  up s := by
    rw [writeAvailable_changeCopies]
    exact h.up s
  excl T' s w := by
    rw [vars_changeCopies]
    show _ ↔ c.excl T' s w
    rw [← h.excl T' s w]
    split_ifs <;> simp
  shared T' s w := by
    rw [vars_changeCopies]
    show _ ↔ c.shared T' s w ∨ (T' = T ∧ s ∈ L ∧ w = v)
    rw [← h.shared T' s w]
    split_ifs with hsv
    · simp [hsv]
    · exact (or_iff_left fun h' => hsv h'.2).symm
  nodup s w := by
    rw [vars_changeCopies]
    split_ifs
    · exact Variable.nodup_addSharedTransaction (h.nodup s w)
    · exact h.nodup s w

lemma lockExcl (h : Locked S c) {T : TranId} {v : VarId} {L : List SiteId} {x : Value}
    (hfree : ∀ s ∈ L, ∀ T', ¬c.excl T' s v) :
    Locked (changeCopies L v (fun x => (x.removeSharedOwner T).setExclusiveTransaction T) S)
      (c.lockExcl T v {s | s ∈ L} x) where
  up s := by
    rw [writeAvailable_changeCopies]
    exact h.up s
  excl T' s w := by
    rw [vars_changeCopies]
    show _ ↔ c.excl T' s w ∨ (T' = T ∧ s ∈ L ∧ w = v)
    split_ifs with hsv
    · obtain ⟨hs, rfl⟩ := hsv
      have hno : ((S s).vars w).exclusiveLockOwner = none :=
        Option.eq_none_iff_forall_ne_some.mpr fun T₁ hT₁ => hfree s hs T₁ ((h.excl T₁ s w).mp hT₁)
      rw [Variable.exclusiveLockOwner_setExclusiveTransaction
        (fun T₁ hT₁ => by simp [Variable.removeSharedOwner, hno] at hT₁), Option.some.injEq]
      refine ⟨fun heq => Or.inr ⟨heq.symm, hs, rfl⟩, fun h' => ?_⟩
      exact (h'.resolve_left (hfree s hs T')).1.symm
    · rw [h.excl]
      exact (or_iff_left fun h' => hsv h'.2).symm
  shared T' s w := by
    rw [vars_changeCopies]
    show _ ↔ c.shared T' s w ∧ ¬(T' = T ∧ s ∈ L ∧ w = v)
    split_ifs with hsv
    · rw [Variable.sharedLockOwners_setExclusiveTransaction,
        Variable.mem_removeSharedOwner (h.nodup s w), h.shared]
      simp [hsv]
    · rw [h.shared]
      exact (and_iff_left fun h' => hsv h'.2).symm
  nodup s w := by
    rw [vars_changeCopies]
    split_ifs
    · rw [Variable.sharedLockOwners_setExclusiveTransaction]
      exact (h.nodup s w).erase T
    · exact h.nodup s w

/-- A step of the protocol changes the locks and the availability as its entry does. -/
lemma step (h : Locked S c) (hi : AvailableCopies.Inv copies c)
    {a : Action SiteId VarId TranId Value} (ha : e.Acts a) (hs : Step copies c a c') :
    Locked (e.redo S) c' := by
  cases ha with
  | created =>
      cases hs
      exact h.of_same h.up (fun _ _ => rfl) (fun _ _ => rfl) rfl rfl
  | sharedLock =>
      cases hs
      exact h.lockShared _ _ _
  | writeLock hL =>
      cases hs with
      | lockExcl _ hfree hmem =>
          refine h.lockExcl fun s hs T' hx => ?_
          exact (hfree s (hi.excl_copies hx) (hi.excl_up hx) T').1 hx
  | rewrites =>
      cases hs
      exact h.of_same h.up (fun _ _ => rfl) (fun _ _ => rfl) rfl rfl
  | committed =>
      cases hs
      exact h.finish _ rfl rfl rfl
  | aborted =>
      cases hs
      exact h.finish _ rfl rfl rfl
  | @failed s =>
      cases hs
      have hvars : (S s).setUnavailable.vars = (S s).vars := rfl
      refine h.of_site hvars (fun s' => ?_) rfl rfl
      by_cases hs : s' = s
      · subst hs
        simp [Config.failSite, Site.setUnavailable]
      · simp [Config.failSite, h.up s', hs]
  | @recovered s =>
      cases hs
      obtain ⟨h1, h2, -⟩ := foldl_setReadAvailable (State.uniqueVars s) (S s).setWriteAvailable
      refine h.of_site h2 (fun s' => ?_) rfl rfl
      by_cases hs : s' = s
      · subst hs
        rw [Function.update_self, h1]
        simp [Config.recoverSite, Site.setWriteAvailable]
      · simp [Config.recoverSite, h.up s', hs]

/-- An entry that is no step of the protocol changes neither. -/
lemma silent (h : Locked S c) (ha : e.action? = none) : Locked (e.redo S) c := by
  cases e with
  | writeLock T v L x =>
      rw [Event.action?] at ha
      split_ifs at ha with hL
      subst hL
      exact h.of_same (fun s => by rw [Event.redo, writeAvailable_changeCopies]; exact h.up s)
        (fun _ _ => by rw [Event.redo, vars_changeCopies]; simp)
        (fun _ _ => by rw [Event.redo, vars_changeCopies]; simp) rfl rfl
  | installs T s v x ts =>
      have hvars : ∀ s' w, ((Event.redo S (.installs T s v x ts) s').vars w).exclusiveLockOwner =
            ((S s').vars w).exclusiveLockOwner ∧
          ((Event.redo S (.installs T s v x ts) s').vars w).sharedLockOwners =
            ((S s').vars w).sharedLockOwners := by
        intro s' w
        rw [vars_redo_installs]
        split_ifs <;> exact ⟨rfl, rfl⟩
      refine h.of_same (fun s' => ?_) (fun s' w => (hvars s' w).1) (fun s' w => (hvars s' w).2)
        rfl rfl
      rw [← h.up s', Event.redo]
      by_cases hs : s' = s
      · subst hs
        simp [Site.setReadAvailable, Site.assignVar]
      · rw [Function.update_of_ne hs]
  | created | sharedLock | committed | aborted | failed | recovered => cases ha
  | _ => exact h

/-- **The locks of a run are those of its trace.** -/
theorem steps (h : Locked S c) (hi : AvailableCopies.Inv copies c)
    (hs : Steps copies c (actions es) c') : Locked (es.foldl Event.redo S) c' := by
  induction es generalizing S c with
  | nil =>
      obtain rfl := hs.of_nil
      exact h
  | cons e es ih =>
      rw [List.foldl_cons]
      cases ha : e.action? with
      | none =>
          rw [actions, List.filterMap_cons_none ha] at hs
          exact ih (h.silent ha) hi hs
      | some a =>
          rw [actions, List.filterMap_cons_some ha] at hs
          cases hs with
          | cons hstep hrest =>
              exact ih (h.step hi (Event.acts_of_action? ha) hstep) (hi.step hstep) hrest

end Locked

lemma locked_initial : Locked (fun _ => Site.initial) State.initial.view :=
  ⟨fun _ => Iff.rfl, fun _ _ _ => Iff.rfl, fun _ _ _ => Iff.rfl, fun _ _ => List.nodup_nil⟩

/-! ### Values -/

lemma stores_redo_singleton (S : SiteId → Site) (e : Event) (s : SiteId) (v : VarId) :
    ((S s).vars v).Stores (installsAt [e] s v) ((e.redo S s).vars v) := by
  have hsite : ∀ {s' : SiteId} {st : Site}, st.vars = (S s').vars →
      ((S s).vars v).Stores [] ((Function.update S s' st s).vars v) := by
    intro s' st hst
    by_cases hs : s = s'
    · subst hs
      rw [Function.update_self, hst]
      exact .of_eq rfl rfl
    · rw [Function.update_of_ne hs]
      exact .of_eq rfl rfl
  have hcopies : ∀ {L : List SiteId} {w : VarId} {f : Variable → Variable},
      (∀ x, (f x).versions = x.versions ∧ (f x).value = x.value) →
      ((S s).vars v).Stores [] ((changeCopies L w f S s).vars v) := by
    intro L w f hf
    rw [vars_changeCopies]
    split_ifs
    · exact .of_eq (hf _).1 (hf _).2
    · exact .of_eq rfl rfl
  cases e with
  | installs T s' v' x ts =>
      rw [vars_redo_installs, installsAt]
      by_cases hsv : s' = s ∧ v' = v
      · rw [List.filterMap_cons_some (by rw [Event.install?, if_pos hsv]),
          if_pos ⟨hsv.1.symm, hsv.2.symm⟩]
        exact .setValue _ _ _
      · rw [List.filterMap_cons_none (by rw [Event.install?, if_neg hsv]),
          if_neg fun h => hsv ⟨h.1.symm, h.2.symm⟩]
        exact .of_eq rfl rfl
  | sharedLock =>
      exact hcopies fun x =>
        ⟨Variable.versions_addSharedTransaction, Variable.value_addSharedTransaction⟩
  | writeLock =>
      exact hcopies fun x =>
        ⟨Variable.versions_setExclusiveTransaction, Variable.value_setExclusiveTransaction⟩
  | committed T =>
      have hu := Variable.unlocked_releaseOwner ((S s).vars v) T
      exact .of_eq hu.versions hu.value
  | aborted T =>
      have hu := Variable.unlocked_releaseOwner ((S s).vars v) T
      exact .of_eq hu.versions hu.value
  | failed s' => exact hsite rfl
  | recovered s' => exact hsite (foldl_setReadAvailable _ _).2.1
  | _ => exact .of_eq rfl rfl

/-- The values and the versions of a copy are those of its stores. -/
lemma stores_redo (tr : List Event) (s : SiteId) (v : VarId) :
    (Variable.initial v).Stores (installsAt tr s v) ((redo tr s).vars v) := by
  induction tr using List.reverseRecOn with
  | nil => exact .of_eq rfl rfl
  | append_singleton tr e ih =>
      rw [installsAt_append, redo_append]
      exact ih.trans (stores_redo_singleton _ e s v)

/-! ### Readable copies -/

lemma readAvailable_redo_of_ne (hf : ∀ s, .failed s ∉ es) (hr : ∀ s, .recovered s ∉ es) :
    ((es.foldl Event.redo S) s).readAvailable v = true ↔
      (S s).readAvailable v = true ∨ ∃ T x ts, .installs T s v x ts ∈ es := by
  induction es generalizing S with
  | nil => simp
  | cons e es ih =>
      rw [List.foldl_cons, ih (fun s h => hf s (List.mem_cons_of_mem e h))
        fun s h => hr s (List.mem_cons_of_mem e h)]
      cases e with
      | installs T s' v' x ts =>
          rw [Event.redo]
          by_cases hs : s = s'
          · subst hs
            by_cases hv : v = v'
            · subst hv
              simp [Site.setReadAvailable]
              exact Or.inr ⟨T, x, ts, Or.inl ⟨rfl, rfl, rfl⟩⟩
            · simp [Site.setReadAvailable, Site.assignVar, hv]
          · simp [hs]
      | failed s' => exact absurd List.mem_cons_self (hf s')
      | recovered s' => exact absurd List.mem_cons_self (hr s')
      | sharedLock => simp [Event.redo, readAvailable_changeCopies]
      | writeLock => simp [Event.redo, readAvailable_changeCopies]
      | _ => simp [Event.redo]

end Redo

namespace State

variable {o : IterOrder} {σ σ' : State} {r : Request} {es : List Event} {T : TranId} {l : List Feed}

lemma Outcome.recovered_mem {s : SiteId} (h : Outcome o σ r es σ') (hes : .recovered s ∈ es) :
    ∃ ts, r = .recover ts s := by
  cases h with
  | recovered =>
      cases List.mem_singleton.mp hes
      exact ⟨_, rfl⟩
  | sharesEven =>
      revert hes
      generalize o.visit _ = l
      cases l <;> simp [firstRead]
  | _ => simp [storeEvent] at hes

/-- The readable copies are those of the trace. -/
def ReadableRedone (σ : State) : Prop :=
  ∀ s v, σ.isReadAvailable s v = true ↔ copyReadable σ.trace s v = true

lemma ReadableRedone.exec (h : σ.ReadableRedone) (hout : Outcome o σ r es σ') :
    σ'.ReadableRedone := by
  intro s v
  rw [copyReadable, hout.trace, redo_append]
  by_cases hf : ∃ ts s, r = .fail ts s
  · obtain ⟨ts, s₀, rfl⟩ := hf
    cases hout with
    | unavailable ha => cases ha
    | waitsForLock ha => cases ha
    | failed hx =>
        rw [(available_of_failed hx s).2 v, List.foldl_append, List.foldl_cons, List.foldl_nil,
          Event.redo]
        by_cases hs : s = s₀
        · subst hs
          simp [Site.setUnavailable]
        · rw [if_neg hs, Function.update_of_ne hs, readAvailable_redo_of_ne (by simp) (by simp),
            h s v]
          exact (or_iff_left (by simp)).symm
  by_cases hr : ∃ ts s, r = .recover ts s
  · obtain ⟨ts, s₀, rfl⟩ := hr
    cases hout with
    | unavailable ha => cases ha
    | waitsForLock ha => cases ha
    | recovered =>
        rw [(available_of_recovered σ o s₀ s).2 v, h s v, copyReadable, List.foldl_cons,
          List.foldl_nil, Event.redo]
        by_cases hs : s = s₀
        · subst hs
          rw [Function.update_self, (foldl_setReadAvailable _ _).2.2 v]
          simp [Site.setWriteAvailable]
        · rw [Function.update_of_ne hs]
          simp [hs]
  · rw [(hout.available (fun ts s heq => hf ⟨ts, s, heq⟩) (fun ts s heq => hr ⟨ts, s, heq⟩) s).2 v,
      h s v, readAvailable_redo_of_ne (fun s hmem => hf ?_) fun s hmem => hr ?_]
    · rfl
    · obtain ⟨ts, heq⟩ := hout.failed_mem hmem
      exact ⟨ts, s, heq⟩
    · obtain ⟨ts, heq⟩ := hout.recovered_mem hmem
      exact ⟨ts, s, heq⟩

/-- A copy that has one owner of locks at most is known from its value, its versions, and who holds
which lock on it. -/
lemma variable_ext {x y : Variable} (hval : x.value = y.value) (hver : x.versions = y.versions)
    (hx : ∀ T, x.exclusiveLockOwner = some T ↔ y.exclusiveLockOwner = some T)
    (hs : ∀ T, T ∈ x.sharedLockOwners ↔ T ∈ y.sharedLockOwners)
    (hnx : x.sharedLockOwners.Nodup) (hny : y.sharedLockOwners.Nodup)
    (hone : ∀ T ∈ y.sharedLockOwners, ∀ T' ∈ y.sharedLockOwners, T = T') : x = y := by
  have hperm : x.sharedLockOwners.Perm y.sharedLockOwners :=
    (List.perm_ext_iff_of_nodup hnx hny).mpr hs
  have hshared : x.sharedLockOwners = y.sharedLockOwners := by
    cases hl : y.sharedLockOwners with
    | nil => exact List.perm_nil.mp (hl ▸ hperm)
    | cons T l =>
        rw [hl] at hperm hone hny
        have hnil : l = [] := List.eq_nil_iff_forall_not_mem.mpr fun T' hT' =>
          (List.nodup_cons.mp hny).1
            (hone T List.mem_cons_self T' (List.mem_cons_of_mem T hT') ▸ hT')
        rw [hnil] at hperm ⊢
        exact List.perm_singleton.mp hperm
  have hexcl : x.exclusiveLockOwner = y.exclusiveLockOwner := Option.ext hx
  cases x
  cases y
  cases hval
  cases hver
  cases hshared
  cases hexcl
  rfl

/-- The sites of a state are those of its trace. -/
lemma sites_eq_redo (hR : Reached l σ) (hS : Stamped l σ) (hr : σ.ReadableRedone) :
    σ.sites = redo σ.trace := by
  have hg := hR.good
  have hlock := locked_initial.steps good_initial.inv hR.simulation.steps
  rw [← redo] at hlock
  funext s
  have hup : (σ.sites s).writeAvailable = (redo σ.trace s).writeAvailable :=
    Bool.eq_iff_iff.mpr (hlock.up s).symm
  have hread : (σ.sites s).readAvailable = (redo σ.trace s).readAvailable :=
    funext fun v => Bool.eq_iff_iff.mpr (hr s v)
  have hvars : (σ.sites s).vars = (redo σ.trace s).vars := by
    funext v
    have h1 := hS.stored s v
    have h2 := stores_redo σ.trace s v
    refine variable_ext (h1.value.trans h2.value.symm) (h1.versions.trans h2.versions.symm)
      (fun T => (hlock.excl T s v).symm) (fun T => (hlock.shared T s v).symm)
      (hg.wf.shared_nodup s v) (hlock.nodup s v) fun T hT T' hT' => ?_
    exact hg.inv.shared_shared ((hlock.shared T s v).mp hT) ((hlock.shared T' s v).mp hT')
  calc σ.sites s = ⟨_, _, _⟩ := rfl
    _ = redo σ.trace s := by rw [hup, hread, hvars]

end State

/-- **The sites of a run** are those that its trace leads to. -/
theorem redo_invariant (C : Request → State → Prop) : HistoryInvariant C fun l σ =>
    State.Stamped l σ ∧ State.ReadableRedone σ where
  initial := ⟨(stamped_invariant C).initial, fun _ _ => Iff.rfl⟩
  congr h hs ht htr := by
    refine ⟨(stamped_invariant C).congr h.1 hs ht htr, fun s v => ?_⟩
    rw [htr, State.isReadAvailable, hs]
    exact h.2 s v
  abort hg h ha := by
    refine ⟨(stamped_invariant C).abort hg h.1 ha, fun s v => ?_⟩
    obtain ⟨hgone, -, htr⟩ := State.gone_abortTransaction ha
    rw [hgone.readable, h.2 s v, copyReadable, copyReadable, htr, redo_append]
    rfl
  exec ha he hR h hC hx hout :=
    ⟨(stamped_invariant C).exec ha he hR h.1 hC hx hout, h.2.exec hout⟩
  mono hx h := ⟨(stamped_invariant C).mono hx h.1, h.2⟩

section Runs

variable {l : List Feed} {σ : State}

lemma sites_of_meets (ha : Admissible l) (hm : Meets l σ) : σ.sites = redo σ.trace := by
  rcases hm with hr | ⟨r, hc⟩
  · obtain ⟨hS, hre⟩ := (redo_invariant fun _ _ => True).reaches ha (by simp) hr
    exact State.sites_eq_redo (reached_reaches ha hr) hS hre
  · obtain ⟨l', hR, hS, hre⟩ := (redo_invariant fun _ _ => True).called ha (by simp) hc
    exact State.sites_eq_redo hR hS hre

end Runs

end RepCRec
