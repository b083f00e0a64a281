import RepCRec.Container.DepthFirst
import RepCRec.Engine.LockManager

/-!
The search for a deadlock. It adds empty entries to the wait-for graph, which then has the same
edges (`detectDeadlock_spec`), and it finds a cycle exactly when there is one
(`detectDeadlock_iff`).
-/

namespace RepCRec

open Container (IterOrder Search Acyclic)

namespace Dfs

variable {d d' : Dfs} {o : IterOrder}

@[simp] lemma targets_mark (d : Dfs) (T T' : TranId) (c : DfsStatus) :
    (d.mark T c).targets T' = d.targets T' := rfl

lemma visited_mark (d : Dfs) (T T' : TranId) (c : DfsStatus) :
    (d.mark T c).visited T' = if T' = T then c else d.visited T' :=
  Function.update_apply d.visited T c T'

@[simp] lemma visited_touch (d : Dfs) (T : TranId) : (d.touch T).visited = d.visited := by
  rw [touch]
  split_ifs <;> rfl

@[simp] lemma hasCycle_touch (d : Dfs) (T : TranId) : (d.touch T).hasCycle = d.hasCycle := by
  rw [touch]
  split_ifs <;> rfl

/-- The graph has grown by entries without targets at most. -/
def Grows (d d' : Dfs) : Prop := ∀ T, d'.graph.lookup T = d.graph.lookup T ∨
  (d.graph.lookup T = none ∧ d'.graph.lookup T = some [])

lemma Grows.refl (d : Dfs) : Grows d d := fun _ => Or.inl rfl

lemma Grows.trans {d₁ : Dfs} (h : Grows d d₁) (h' : Grows d₁ d') : Grows d d' := by
  intro T
  rcases h' T with heq | ⟨hnone, hnil⟩
  · rw [heq]
    exact h T
  · rcases h T with heq | ⟨-, hsome⟩
    · exact Or.inr ⟨heq ▸ hnone, hnil⟩
    · rw [hnone] at hsome
      cases hsome

lemma Grows.targets (h : Grows d d') (T : TranId) : d'.targets T = d.targets T := by
  rw [Dfs.targets, Dfs.targets]
  rcases h T with heq | ⟨hnone, hnil⟩
  · rw [heq]
  · rw [hnone, hnil]
    rfl

lemma grows_touch (d : Dfs) (T : TranId) : Grows d (d.touch T) := by
  intro T'
  rw [touch]
  split_ifs with h
  · exact Or.inl rfl
  · rw [Dict.lookup_insert]
    split_ifs with hT
    · subst hT
      exact Or.inr ⟨AList.lookup_eq_none.mpr h, rfl⟩
    · exact Or.inl rfl

/-- The loop over the targets of a node, if the recursive calls are of this kind. -/
lemma grows_visitTargets {rec : TranId → Dfs → Option Dfs}
    (hrec : ∀ {T d d'}, rec T d = some d' → Grows d d') {curr : TranId} {l : List TranId}
    (h : visitTargets rec curr l d = some d') : Grows d d' := by
  induction l generalizing d with
  | nil =>
      cases h
      exact .refl d
  | cons next l ih =>
      rw [visitTargets] at h
      split_ifs at h with h1 h2
      · cases h
        exact .refl d
      · obtain ⟨d₁, hd₁, h⟩ := Option.bind_eq_some_iff.mp h
        have h₁ := hrec hd₁
        dsimp only at h
        split_ifs at h
        · cases h
          exact h₁
        · exact h₁.trans (ih h)
      · obtain ⟨d₁, hd₁, h⟩ := Option.bind_eq_some_iff.mp h
        cases hd₁
        dsimp only at h
        split_ifs at h
        · cases h
          exact .refl _
        · exact ih h

end Dfs

/-- The search from one node only adds marks and empty entries. -/
lemma grows_waitForGraphDfs {o : IterOrder} {fuel : ℕ} {T : TranId} {d d' : Dfs}
    (h : waitForGraphDfs o fuel T d = some d') : Dfs.Grows d d' := by
  induction fuel generalizing T d d' with
  | zero => cases h
  | succ fuel ih =>
      rw [waitForGraphDfs] at h
      split_ifs at h with h1
      · cases h
        exact .refl d
      · exact (Dfs.grows_touch (d.mark T .onPath) T).trans
          (Dfs.grows_visitTargets (fun h => ih h) h)

lemma grows_detectDeadlockLoop {o : IterOrder} {fuel : ℕ} {l : List TranId} {d d' : Dfs}
    (h : detectDeadlockLoop o fuel l d = some d') : Dfs.Grows d d' := by
  induction l generalizing d with
  | nil =>
      cases h
      exact .refl _
  | cons T' l ih =>
      rw [detectDeadlockLoop] at h
      split_ifs at h with h1
      · obtain ⟨d₁, hd₁, h⟩ := Option.bind_eq_some_iff.mp h
        have h₁ := grows_waitForGraphDfs hd₁
        split_ifs at h
        · cases h
          exact h₁
        · exact h₁.trans (ih h)
      · exact ih h

/-! ### What the search finds -/

section Search

variable {g : TranId → List TranId} {path ns : List TranId} {d d' : Dfs} {o : IterOrder}
  {T : TranId}

namespace Dfs

/-- The search stands on the path in the graph with the targets `g`, and has left the visited
nodes. -/
structure At (g : TranId → List TranId) (path : List TranId) (d : Dfs) : Prop where
  targets : ∀ T, d.targets T = g T
  onPath : ∀ T, d.visited T = .onPath ↔ T ∈ path
  search : Search (fun T T' => T' ∈ g T) path fun T => d.visited T = .visited

/-- The search from `T` found a cycle, or it has left `T` and stands where it was. -/
def Returns (g : TranId → List TranId) (path : List TranId) (T : TranId) (d d' : Dfs) : Prop :=
  (d'.hasCycle = true ∧ ¬Acyclic fun T T' => T' ∈ g T) ∨
    (d'.hasCycle = false ∧ At g path d' ∧ d'.visited T = .visited ∧
      ∀ T', d.visited T' = .visited → d'.visited T' = .visited)

/-- No node is visited when the search begins. -/
lemma At.start (d : Dfs) (hv : d.visited = fun _ => .notVisit) : At d.targets [] d where
  targets _ := rfl
  onPath T := by simp [hv]
  search := by simpa [hv] using Search.start _

/-- An unvisited target of the last node is put on the path. -/
lemma At.enter (h : At g path d) (hT : d.visited T = .notVisit)
    (hedge : ∀ T' ∈ path.head?, T ∈ g T') : At g (T :: path) ((d.mark T .onPath).touch T) := by
  have hp : T ∉ path := fun hp => by simp [(h.onPath T).mpr hp] at hT
  refine ⟨fun T' => by rw [(grows_touch _ T).targets, targets_mark, h.targets], fun T' => ?_, ?_⟩
  · rw [visited_touch, visited_mark, List.mem_cons, ← h.onPath]
    split_ifs with heq <;> simp [heq]
  · have hl : (fun T' => ((d.mark T .onPath).touch T).visited T' = .visited) =
        fun T' => d.visited T' = .visited := by
      funext T'
      rw [visited_touch, visited_mark]
      split_ifs with heq
      · simp [heq, hT]
      · rfl
    rw [hl]
    exact h.search.enter (by simp [hT]) hp hedge

/-- The last node of the path is left, when all its targets are visited. -/
lemma At.leave (h : At g (T :: path) d) (ht : ∀ T' ∈ g T, d.visited T' = .visited) :
    At g path (d.mark T .visited) where
  targets T' := by rw [targets_mark, h.targets]
  onPath T' := by
    have hp : T ∉ path := (List.nodup_cons.mp h.search.nodup).1
    have ho := h.onPath T'
    rw [visited_mark]
    split_ifs with heq
    · simp [heq, hp]
    · simpa [heq] using ho
  search := by
    have hl : (fun T' => (d.mark T .visited).visited T' = .visited) =
        fun T' => d.visited T' = .visited ∨ T' = T := by
      funext T'
      rw [visited_mark]
      split_ifs with heq <;> simp [heq]
    rw [hl]
    exact h.search.leave ht

/-- The loop over the targets of the head of the path; `rec` searches from a target that was not
met. -/
lemma visitTargets_returns {rec : TranId → Dfs → Option Dfs}
    (hrec : ∀ T' d, At g (T :: path) d → d.hasCycle = false → d.visited T' = .notVisit →
      T' ∈ g T → ∃ d', rec T' d = some d' ∧ Returns g (T :: path) T' d d') {l : List TranId}
    (h : At g (T :: path) d) (hc : d.hasCycle = false) (hl : ∀ T' ∈ l, T' ∈ g T)
    (hg : ∀ T' ∈ g T, T' ∈ l ∨ d.visited T' = .visited) :
    ∃ d', visitTargets rec T l d = some d' ∧ Returns g path T d d' := by
  induction l generalizing d with
  | nil =>
      refine ⟨_, rfl, Or.inr ⟨hc, h.leave fun T' hT' => ?_, by simp [visited_mark],
        fun T' hT' => ?_⟩⟩
      · exact (hg T' hT').resolve_left List.not_mem_nil
      · rw [visited_mark]
        split_ifs
        · rfl
        · exact hT'
  | cons next l ih =>
      have hnext : next ∈ g T := hl next List.mem_cons_self
      rw [visitTargets]
      by_cases h1 : d.visited next = .onPath
      · rw [if_pos h1]
        refine ⟨_, rfl, Or.inl ⟨rfl, fun ha => ?_⟩⟩
        exact ha next (h.search.cycle ((h.onPath next).mp h1) hnext)
      rw [if_neg h1]
      -- the search goes on from a state that has left `next`
      have hgo : ∀ d₁, Returns g (T :: path) next d d₁ → ∃ d',
          (if d₁.hasCycle then some d₁ else visitTargets rec T l d₁) = some d' ∧
            Returns g path T d d' := by
        rintro d₁ (⟨hc₁, hcyc⟩ | ⟨hc₁, hat, hv, hmono⟩)
        · exact ⟨d₁, by rw [if_pos hc₁], Or.inl ⟨hc₁, hcyc⟩⟩
        · rw [hc₁, if_neg Bool.false_ne_true]
          obtain ⟨d', hd', hret⟩ := ih hat hc₁ (fun T' hT' => hl T' (List.mem_cons_of_mem _ hT'))
            fun T' hT' => by
              rcases hg T' hT' with hm | hvis
              · rcases List.mem_cons.mp hm with rfl | hm
                · exact Or.inr hv
                · exact Or.inl hm
              · exact Or.inr (hmono T' hvis)
          refine ⟨d', hd', hret.imp id ?_⟩
          rintro ⟨h2, h3, h4, h5⟩
          exact ⟨h2, h3, h4, fun T' hT' => h5 T' (hmono T' hT')⟩
      by_cases h2 : d.visited next = .notVisit
      · obtain ⟨d₁, hd₁, hret⟩ := hrec next d h hc h2 hnext
        obtain ⟨d', hd', hret'⟩ := hgo d₁ hret
        refine ⟨d', ?_, hret'⟩
        rw [if_pos h2, hd₁]
        exact hd'
      · have hvis : d.visited next = .visited := by
          cases hv : d.visited next with
          | notVisit => exact absurd hv h2
          | onPath => exact absurd hv h1
          | visited => rfl
        obtain ⟨d', hd', hret'⟩ := hgo d (Or.inr ⟨hc, h, hvis, fun _ => id⟩)
        refine ⟨d', ?_, hret'⟩
        rw [if_neg h2]
        exact hd'

end Dfs

/-- With fuel for all nodes that are not on the path, the search returns. -/
lemma waitForGraphDfs_returns (hns : ∀ T, ∀ T' ∈ g T, T' ∈ ns) {fuel : ℕ} (h : Dfs.At g path d)
    (hp : path ⊆ ns) (hfuel : ns.length < fuel + path.length) (hc : d.hasCycle = false)
    (hT : d.visited T = .notVisit) (hTn : T ∈ ns) (hedge : ∀ T' ∈ path.head?, T ∈ g T') :
    ∃ d', waitForGraphDfs o fuel T d = some d' ∧ Dfs.Returns g path T d d' := by
  induction fuel generalizing path d T with
  | zero =>
      have hle : path.length ≤ ns.length := h.search.length_le hp
      omega
  | succ fuel ih =>
      have hat := h.enter hT hedge
      have hv : ((d.mark T .onPath).touch T).hasCycle = false := by
        rw [Dfs.hasCycle_touch]
        exact hc
      rw [waitForGraphDfs, if_neg (by simp [hT, hc])]
      obtain ⟨d', hd', hret⟩ := Dfs.visitTargets_returns
        (l := o.visit (((d.mark T .onPath).touch T).targets T))
        (fun T' d₁ h₁ hc₁ hT₁ hTT' => ih h₁ (List.cons_subset.mpr ⟨hTn, hp⟩)
          (by rw [List.length_cons]; omega) hc₁ hT₁ (hns T T' hTT') fun T'' hT'' => by
            cases hT''
            exact hTT')
        hat hv (fun T' hT' => by simpa [hat.targets] using hT')
        (fun T' hT' => Or.inl (by simpa [hat.targets] using hT'))
      refine ⟨d', hd', hret.imp id ?_⟩
      rintro ⟨h2, h3, h4, h5⟩
      refine ⟨h2, h3, h4, fun T' hT' => h5 T' ?_⟩
      have hne : T' ≠ T := by
        rintro rfl
        simp [hT] at hT'
      rw [Dfs.visited_touch, Dfs.visited_mark, if_neg hne]
      exact hT'

/-- The loop over the nodes ends with a cycle, or with all nodes of the loop visited. -/
lemma detectDeadlockLoop_returns (hns : ∀ T, ∀ T' ∈ g T, T' ∈ ns) {fuel : ℕ}
    (hfuel : ns.length < fuel) {l : List TranId} (hl : l ⊆ ns) (h : Dfs.At g [] d)
    (hc : d.hasCycle = false) :
    ∃ d', detectDeadlockLoop o fuel l d = some d' ∧
      ((d'.hasCycle = true ∧ ¬Acyclic fun T T' => T' ∈ g T) ∨
        (d'.hasCycle = false ∧ Dfs.At g [] d' ∧ (∀ T ∈ l, d'.visited T = .visited) ∧
          ∀ T, d.visited T = .visited → d'.visited T = .visited)) := by
  induction l generalizing d with
  | nil => exact ⟨d, rfl, Or.inr ⟨hc, h, by simp, fun _ => id⟩⟩
  | cons T l ih =>
      obtain ⟨hT, hl⟩ := List.cons_subset.mp hl
      have hgo : ∀ d₁, Dfs.Returns g [] T d d₁ → ∃ d',
          (if d₁.hasCycle then some d₁ else detectDeadlockLoop o fuel l d₁) = some d' ∧
            ((d'.hasCycle = true ∧ ¬Acyclic fun T T' => T' ∈ g T) ∨
              (d'.hasCycle = false ∧ Dfs.At g [] d' ∧ (∀ T' ∈ T :: l, d'.visited T' = .visited) ∧
                ∀ T', d.visited T' = .visited → d'.visited T' = .visited)) := by
        rintro d₁ (⟨hc₁, hcyc⟩ | ⟨hc₁, hat, hv, hmono⟩)
        · exact ⟨d₁, by rw [if_pos hc₁], Or.inl ⟨hc₁, hcyc⟩⟩
        · rw [hc₁, if_neg Bool.false_ne_true]
          obtain ⟨d', hd', hret⟩ := ih hl hat hc₁
          refine ⟨d', hd', hret.imp id ?_⟩
          rintro ⟨h2, h3, h4, h5⟩
          refine ⟨h2, h3, fun T' hT' => ?_, fun T' hT' => h5 T' (hmono T' hT')⟩
          rcases List.mem_cons.mp hT' with rfl | hT'
          · exact h5 T' hv
          · exact h4 T' hT'
      rw [detectDeadlockLoop]
      by_cases h1 : d.visited T = .notVisit
      · obtain ⟨d₁, hd₁, hret⟩ := waitForGraphDfs_returns (o := o) hns h (by simp)
          (by simpa using hfuel) hc h1 hT (by simp)
        rw [if_pos h1, hd₁]
        exact hgo d₁ hret
      · have hvis : d.visited T = .visited := by
          cases hv : d.visited T with
          | notVisit => exact absurd hv h1
          | onPath => exact absurd ((h.onPath T).mp hv) List.not_mem_nil
          | visited => rfl
        obtain ⟨d', hd', hret⟩ := hgo d (Or.inr ⟨hc, h, hvis, fun _ => id⟩)
        rw [hc, if_neg Bool.false_ne_true] at hd'
        rw [if_neg h1]
        exact ⟨d', hd', hret⟩

end Search

namespace State

/-- **The search keeps the edges**, and everything outside the wait-for graph. -/
theorem detectDeadlock_spec {o : IterOrder} {σ σ' : State} {b : Bool}
    (h : σ.detectDeadlock o = some (b, σ')) :
    (∃ g, σ' = { σ with waitForGraph := g }) ∧ ∀ T, σ'.waitsFor T = σ.waitsFor T := by
  obtain ⟨d, hd, h⟩ := Option.bind_eq_some_iff.mp h
  cases h
  exact ⟨⟨d.graph, rfl⟩, (grows_detectDeadlockLoop hd).targets⟩

/-- The search adds entries without targets at most. -/
lemma lookup_detectDeadlock {o : IterOrder} {σ σ' : State} {b : Bool}
    (h : σ.detectDeadlock o = some (b, σ')) (T : TranId) :
    σ'.waitForGraph.lookup T = σ.waitForGraph.lookup T ∨
      (σ.waitForGraph.lookup T = none ∧ σ'.waitForGraph.lookup T = some []) := by
  obtain ⟨d, hd, h⟩ := Option.bind_eq_some_iff.mp h
  cases h
  exact grows_detectDeadlockLoop hd T

/-- `T` waits for `T'`. -/
def WaitsFor (σ : State) (T T' : TranId) : Prop := T' ∈ σ.waitsFor T

/-- The search adds no edge and removes none. -/
lemma waitsFor_detectDeadlock {o : IterOrder} {σ σ' : State} {b : Bool}
    (h : σ.detectDeadlock o = some (b, σ')) : σ'.WaitsFor = σ.WaitsFor := by
  funext T T'
  rw [WaitsFor, (detectDeadlock_spec h).2, WaitsFor]

lemma mem_graphNodes {σ : State} {T T' : TranId} (h : T' ∈ σ.waitsFor T) : T' ∈ σ.graphNodes := by
  obtain ⟨ts, hl, hmem⟩ := Dict.mem_getD.mp h
  exact List.mem_append_right _ (List.mem_flatMap.mpr ⟨_, AList.mem_lookup_iff.mp hl, hmem⟩)

/-- **The search finds a deadlock** exactly when there is a cycle, and it always returns. -/
theorem detectDeadlock_iff (σ : State) (o : IterOrder) :
    ∃ b σ', σ.detectDeadlock o = some (b, σ') ∧ (b = true ↔ ¬Acyclic σ.WaitsFor) := by
  obtain ⟨d', hd', hret⟩ := detectDeadlockLoop_returns (o := o)
    (fun T T' => mem_graphNodes) (Nat.lt_succ_self σ.graphNodes.length)
    (l := o.visit σ.waitForGraph.keys)
    (fun T hT => List.mem_append_left _ ((o.mem_visit).mp hT))
    (Dfs.At.start { graph := σ.waitForGraph } rfl) rfl
  refine ⟨d'.hasCycle, _, by rw [detectDeadlock, hd']; rfl, ?_⟩
  rcases hret with ⟨hc, hcyc⟩ | ⟨hc, hat, hv, -⟩
  · exact iff_of_true hc hcyc
  · refine iff_of_false (by simp [hc]) (not_not_intro ?_)
    refine hat.search.acyclic fun T T' hT' => hv T (o.mem_visit.mpr ?_)
    obtain ⟨ts, hl, -⟩ := Dict.mem_getD.mp hT'
    exact AList.mem_keys.mpr (Dict.mem_of_lookup hl)

end State

end RepCRec
