import RepCRec.Container.Sorted

/-!
Histories of assignments to a map with ordered keys. The map keeps the entries of the history
(`mem_assignAll_keys`); a bound reads the entry with the greatest key up to it
(`floor_eq_some_iff`), and a history whose keys increase is kept as it is
(`assignAll_of_sorted`).
-/

namespace Container

variable {κ β : Type*} [LinearOrder κ] {k t : κ} {x : β} {p : κ × β} {m l : List (κ × β)}

/-! ### One assignment -/

lemma mem_of_mem_assign : ∀ {m : List (κ × β)}, p ∈ assign k x m → p = (k, x) ∨ p ∈ m
  | [], h => by simpa [assign] using h
  | (k', x') :: m, h => by
      rw [assign] at h
      split_ifs at h with h1 h2
      · simpa using h
      · rcases List.mem_cons.mp h with rfl | h
        · simp
        · exact (mem_of_mem_assign h).imp id (List.mem_cons_of_mem _)
      · exact (List.mem_cons.mp h).imp id (List.mem_cons_of_mem _)

lemma self_mem_assign (k : κ) (x : β) : ∀ m : List (κ × β), (k, x) ∈ assign k x m
  | [] => by simp [assign]
  | (k', x') :: m => by
      rw [assign]
      split_ifs
      · simp
      · exact List.mem_cons_of_mem _ (self_mem_assign k x m)
      · simp

lemma mem_assign_of_ne (hk : p.1 ≠ k) : ∀ {m : List (κ × β)}, p ∈ m → p ∈ assign k x m
  | (k', x') :: m, h => by
      rw [assign]
      split_ifs with h1 h2
      · exact List.mem_cons_of_mem _ h
      · rcases List.mem_cons.mp h with rfl | h
        · simp
        · exact List.mem_cons_of_mem _ (mem_assign_of_ne hk h)
      · rcases List.mem_cons.mp h with rfl | h
        · exact absurd (le_antisymm (not_lt.mp h1) (not_lt.mp h2)) hk
        · exact List.mem_cons_of_mem _ h

lemma SortedByKey.assign :
    ∀ {m : List (κ × β)}, SortedByKey Prod.fst m → SortedByKey Prod.fst (assign k x m)
  | [], _ => by simp [SortedByKey, Container.assign]
  | (k', x') :: m, h => by
      obtain ⟨hlt, hm⟩ := List.pairwise_cons.mp h
      rw [Container.assign]
      split_ifs with h1 h2
      · refine List.pairwise_cons.mpr ⟨fun q hq => ?_, h⟩
        rcases List.mem_cons.mp hq with rfl | hq
        · exact h1
        · exact h1.trans (hlt q hq)
      · refine List.pairwise_cons.mpr ⟨fun q hq => ?_, SortedByKey.assign hm⟩
        rcases mem_of_mem_assign hq with rfl | hq
        · exact h2
        · exact hlt q hq
      · obtain rfl : k = k' := le_antisymm (not_lt.mp h2) (not_lt.mp h1)
        exact List.pairwise_cons.mpr ⟨hlt, hm⟩

/-! ### Reading at a bound -/

/-- `floor` by recursion: a later version that is not above the bound goes first. -/
lemma floor_cons (t k : κ) (x : β) (m : List (κ × β)) :
    floor t ((k, x) :: m) = if k ≤ t then some ((floor t m).getD x) else none := by
  rw [floor, floor, List.takeWhile_cons]
  by_cases h : k ≤ t
  · rw [if_pos h, if_pos (by simpa using h), List.getLast?_cons]
    cases (m.takeWhile fun p => p.1 ≤ t).getLast? <;> rfl
  · rw [if_neg h, if_neg (by simpa using h)]
    rfl

/-- What is read is in the map. -/
lemma mem_of_floor (h : floor t m = some x) : ∃ k, (k, x) ∈ m := by
  obtain ⟨p, hp, rfl⟩ := Option.map_eq_some_iff.mp h
  exact ⟨p.1, (List.takeWhile_sublist _).mem (List.mem_of_getLast? hp)⟩

/-- A bound below all keys reads nothing. -/
lemma floor_eq_none_iff : ∀ {m : List (κ × β)}, SortedByKey Prod.fst m →
    (floor t m = none ↔ ∀ q ∈ m, t < q.1)
  | [], _ => by simp [floor]
  | (k, x) :: m, h => by
      obtain ⟨hlt, hm⟩ := List.pairwise_cons.mp h
      rw [floor_cons]
      split_ifs with hk
      · exact iff_of_false (by simp) fun hall => (hall (k, x) List.mem_cons_self).not_ge hk
      · refine iff_of_true rfl fun q hq => ?_
        rcases List.mem_cons.mp hq with rfl | hq
        · exact not_le.mp hk
        · exact (not_le.mp hk).trans (hlt q hq)

/-- **A bound reads** the entry with the greatest key that is not above it. -/
theorem floor_eq_some_iff {x : β} : ∀ {m : List (κ × β)}, SortedByKey Prod.fst m →
    (floor t m = some x ↔ ∃ k, (k, x) ∈ m ∧ k ≤ t ∧ ∀ q ∈ m, q.1 ≤ k ∨ t < q.1)
  | [], _ => by simp [floor]
  | (k', x') :: m, h => by
      obtain ⟨hlt, hm⟩ := List.pairwise_cons.mp h
      have ih : ∀ y, floor t m = some y ↔ _ := fun y => floor_eq_some_iff hm
      rw [floor_cons]
      split_ifs with hk
      · rw [Option.some.injEq]
        cases hf : floor t m with
        | none =>
            have hgt := (floor_eq_none_iff hm).mp hf
            rw [Option.getD_none]
            constructor
            · rintro rfl
              refine ⟨k', List.mem_cons_self, hk, fun q hq => ?_⟩
              rcases List.mem_cons.mp hq with rfl | hq
              · exact Or.inl le_rfl
              · exact Or.inr (hgt q hq)
            · rintro ⟨k, hmem, hkt, -⟩
              rcases List.mem_cons.mp hmem with heq | hmem
              · cases heq
                rfl
              · exact absurd hkt (hgt _ hmem).not_ge
        | some y =>
            obtain ⟨k₀, hmem₀, hk₀, hmax₀⟩ := (ih y).mp hf
            have hlt₀ : k' < k₀ := hlt _ hmem₀
            rw [Option.getD_some]
            constructor
            · rintro rfl
              refine ⟨k₀, List.mem_cons_of_mem _ hmem₀, hk₀, fun q hq => ?_⟩
              rcases List.mem_cons.mp hq with rfl | hq
              · exact Or.inl hlt₀.le
              · exact hmax₀ q hq
            · rintro ⟨k, hmem, hkt, hmax⟩
              rcases List.mem_cons.mp hmem with heq | hmem
              · cases heq
                rcases hmax _ (List.mem_cons_of_mem _ hmem₀) with h' | h'
                · exact absurd h' hlt₀.not_ge
                · exact absurd hk₀ h'.not_ge
              · have hx := (ih x).mpr ⟨k, hmem, hkt, fun q hq => hmax q (List.mem_cons_of_mem _ hq)⟩
                exact Option.some.inj (hf.symm.trans hx)
      · refine iff_of_false (by simp) ?_
        rintro ⟨k, hmem, hkt, -⟩
        rcases List.mem_cons.mp hmem with heq | hmem
        · cases heq
          exact hk hkt
        · exact hk ((hlt _ hmem).le.trans hkt)

/-! ### Histories of assignments -/

/-- The map after the assignments of a history. -/
def assignAll (m l : List (κ × β)) : List (κ × β) := l.foldl (fun m p => assign p.1 p.2 m) m

lemma assignAll_append (m l l' : List (κ × β)) :
    assignAll m (l ++ l') = assignAll (assignAll m l) l' := by
  rw [assignAll, List.foldl_append, assignAll, assignAll]

/-- The versions stay sorted. -/
lemma SortedByKey.assignAll (h : SortedByKey Prod.fst m) (l : List (κ × β)) :
    SortedByKey Prod.fst (Container.assignAll m l) := by
  induction l generalizing m with
  | nil => exact h
  | cons p l ih => exact ih h.assign

/-- No version comes from elsewhere. -/
lemma mem_of_mem_assignAll (h : p ∈ assignAll m l) : p ∈ m ∨ p ∈ l := by
  induction l generalizing m with
  | nil => exact Or.inl h
  | cons q l ih =>
      rcases ih h with h | h
      · rcases mem_of_mem_assign h with rfl | h
        · exact Or.inr List.mem_cons_self
        · exact Or.inl h
      · exact Or.inr (List.mem_cons_of_mem q h)

/-- The keys of the map are those of the history. -/
lemma exists_mem_assignAll (m l : List (κ × β)) (k : κ) :
    (∃ x, (k, x) ∈ assignAll m l) ↔ ∃ x, (k, x) ∈ m ++ l := by
  constructor
  · rintro ⟨x, h⟩
    exact ⟨x, List.mem_append.mpr (mem_of_mem_assignAll h)⟩
  · induction l generalizing m with
    | nil => simp [assignAll]
    | cons q l ih =>
        rintro ⟨x, h⟩
        refine ih _ ?_
        rw [List.append_cons, List.mem_append, List.mem_append, List.mem_singleton] at h
        rcases h with (h | rfl) | h
        · by_cases hk : k = q.1
          · exact ⟨q.2, List.mem_append_left _ (hk ▸ self_mem_assign q.1 q.2 m)⟩
          · exact ⟨x, List.mem_append_left _ (mem_assign_of_ne hk h)⟩
        · exact ⟨x, List.mem_append_left _ (self_mem_assign k x m)⟩
        · exact ⟨x, List.mem_append_right _ h⟩

/-- **A history with increasing keys** is the map itself. -/
theorem assignAll_of_sorted (h : SortedByKey Prod.fst (m ++ l)) : assignAll m l = m ++ l := by
  induction l generalizing m with
  | nil => exact (List.append_nil m).symm
  | cons q l ih =>
      have hlt : ∀ p ∈ m, p.1 < q.1 := fun p hp =>
        (List.pairwise_append.mp h).2.2 p hp q List.mem_cons_self
      have happ : assign q.1 q.2 m = m ++ [q] := assign_of_lt hlt
      rw [List.append_cons] at h
      calc assignAll m (q :: l) = assignAll (assign q.1 q.2 m) l := rfl
        _ = assignAll (m ++ [q]) l := by rw [happ]
        _ = m ++ [q] ++ l := ih h
        _ = m ++ q :: l := (List.append_cons m q l).symm

end Container
