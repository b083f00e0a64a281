import Mathlib.Data.List.Sort
import Mathlib.Data.List.TakeWhile
import Mathlib.Order.Basic

/-!
Ordered containers as sorted lists: a set whose elements are compared by a key
(`insertByKey`, inserting nothing when the key is taken) and a map with ordered keys
(`assign`, overwriting the value of a key that is present, and `floor`, the entry with the
greatest key not above a bound).
-/

namespace Container

variable {α κ β : Type*} [LinearOrder κ]

/-! ### Sets ordered by a key -/

/-- Insertion into a set ordered by `key`: an element whose key is present is not inserted. -/
def insertByKey (key : α → κ) (a : α) : List α → List α
  | [] => [a]
  | b :: l =>
      if key a < key b then a :: b :: l
      else if key b < key a then b :: insertByKey key a l
      else b :: l

lemma eq_singleton_of_nodup {a : α} {l : List α} (hn : l.Nodup) (ha : a ∈ l)
    (h : ∀ b ∈ l, b = a) : l = [a] := by
  refine List.perm_singleton.mp ((List.perm_ext_iff_of_nodup hn (List.nodup_singleton a)).mpr
    fun b => ?_)
  rw [List.mem_singleton]
  exact ⟨h b, fun heq => heq ▸ ha⟩

lemma mem_of_mem_insertByKey {key : α → κ} {a b : α} :
    ∀ {l : List α}, b ∈ insertByKey key a l → b = a ∨ b ∈ l
  | [], h => by simpa [insertByKey] using h
  | c :: l, h => by
      rw [insertByKey] at h
      split_ifs at h with h1 h2
      · simpa using h
      · rcases List.mem_cons.mp h with rfl | h'
        · simp
        · rcases mem_of_mem_insertByKey h' with rfl | h''
          · simp
          · simp [h'']
      · exact Or.inr h

lemma mem_insertByKey_of_mem {key : α → κ} {a b : α} :
    ∀ {l : List α}, b ∈ l → b ∈ insertByKey key a l
  | c :: l, h => by
      rw [insertByKey]
      split_ifs with h1 h2
      · exact List.mem_cons_of_mem _ h
      · rcases List.mem_cons.mp h with rfl | h'
        · simp
        · exact List.mem_cons_of_mem _ (mem_insertByKey_of_mem h')
      · exact h

/-- After an insertion some element carries the key. -/
lemma exists_mem_insertByKey (key : α → κ) (a : α) :
    ∀ l : List α, ∃ b ∈ insertByKey key a l, key b = key a
  | [] => ⟨a, by simp [insertByKey], rfl⟩
  | c :: l => by
      rw [insertByKey]
      split_ifs with h1 h2
      · exact ⟨a, by simp, rfl⟩
      · obtain ⟨b, hb, hk⟩ := exists_mem_insertByKey key a l
        exact ⟨b, List.mem_cons_of_mem _ hb, hk⟩
      · exact ⟨c, by simp, le_antisymm (not_lt.mp h1) (not_lt.mp h2)⟩

/-- An element with a fresh key is inserted. -/
lemma self_mem_insertByKey {key : α → κ} {a : α} {l : List α}
    (h : ∀ b ∈ l, key b ≠ key a) : a ∈ insertByKey key a l := by
  obtain ⟨b, hb, hk⟩ := exists_mem_insertByKey key a l
  rcases mem_of_mem_insertByKey hb with rfl | hb'
  · exact hb
  · exact absurd hk (h b hb')

/-- A set ordered by a key: strictly increasing keys. -/
def SortedByKey (key : α → κ) (l : List α) : Prop := l.Pairwise fun a b => key a < key b

/-- The keys tell the elements apart. -/
lemma SortedByKey.eq_of_key {key : α → κ} {a b : α} : ∀ {l : List α}, SortedByKey key l → a ∈ l →
    b ∈ l → key a = key b → a = b
  | c :: l, h, ha, hb, hk => by
      obtain ⟨hlt, hl⟩ := List.pairwise_cons.mp h
      rcases List.mem_cons.mp ha with hac | ha
      · rcases List.mem_cons.mp hb with hbc | hb
        · rw [hac, hbc]
        · exact absurd hk (hac ▸ (hlt b hb).ne)
      · rcases List.mem_cons.mp hb with hbc | hb
        · exact absurd hk (hbc ▸ (hlt a ha).ne')
        · exact SortedByKey.eq_of_key hl ha hb hk

/-- The last element carries the greatest key. -/
lemma SortedByKey.le_of_getLast? {key : α → κ} {a : α} {l : List α} (h : SortedByKey key l)
    (hl : l.getLast? = some a) : ∀ b ∈ l, key b ≤ key a := by
  obtain ⟨l', rfl⟩ := List.getLast?_eq_some_iff.mp hl
  intro b hb
  rcases List.mem_append.mp hb with hb | hb
  · exact ((List.pairwise_append.mp h).2.2 b hb a (List.mem_singleton_self a)).le
  · rw [List.mem_singleton.mp hb]

lemma SortedByKey.insertByKey {key : α → κ} {a : α} :
    ∀ {l : List α}, SortedByKey key l → SortedByKey key (insertByKey key a l)
  | [], _ => by simp [SortedByKey, Container.insertByKey]
  | b :: l, h => by
      have hb := List.pairwise_cons.mp h
      rw [Container.insertByKey]
      split_ifs with h1 h2
      · refine List.pairwise_cons.mpr ⟨fun c hc => ?_, h⟩
        rcases List.mem_cons.mp hc with rfl | hc'
        · exact h1
        · exact h1.trans (hb.1 c hc')
      · refine List.pairwise_cons.mpr ⟨fun c hc => ?_, SortedByKey.insertByKey hb.2⟩
        rcases mem_of_mem_insertByKey hc with rfl | hc'
        · exact h2
        · exact hb.1 c hc'
      · exact h

/-! ### Maps with ordered keys -/

/-- An element that is there already is not inserted again. -/
lemma SortedByKey.insertByKey_of_mem {key : α → κ} {a : α} :
    ∀ {l : List α}, SortedByKey key l → a ∈ l → Container.insertByKey key a l = l
  | b :: l, h, ha => by
      obtain ⟨hb, hl⟩ := List.pairwise_cons.mp h
      rw [Container.insertByKey]
      rcases List.mem_cons.mp ha with rfl | ha
      · rw [if_neg (lt_irrefl _), if_neg (lt_irrefl _)]
      · rw [if_neg (hb a ha).not_gt, if_pos (hb a ha), insertByKey_of_mem hl ha]

/-- The first element after an insertion is the new one or the first one before. -/
lemma head?_insertByKey (key : α → κ) (a : α) (l : List α) :
    (insertByKey key a l).head? = some a ∨ (insertByKey key a l).head? = l.head? := by
  cases l with
  | nil => exact Or.inl rfl
  | cons b l =>
      rw [insertByKey]
      split_ifs
      · exact Or.inl rfl
      · exact Or.inr rfl
      · exact Or.inr rfl

/-- Assignment `m[k] = x` in a map with ordered keys. -/
def assign (k : κ) (x : β) : List (κ × β) → List (κ × β)
  | [] => [(k, x)]
  | (k', x') :: m =>
      if k < k' then (k, x) :: (k', x') :: m
      else if k' < k then (k', x') :: assign k x m
      else (k, x) :: m

/-- The value at the greatest key not above `t`: the entry before the first key above `t`. -/
def floor (t : κ) (m : List (κ × β)) : Option β :=
  (m.takeWhile fun p => p.1 ≤ t).getLast?.map Prod.snd

/-- Assigning at a key above all others appends. -/
lemma assign_of_lt {k : κ} {x : β} :
    ∀ {m : List (κ × β)}, (∀ p ∈ m, p.1 < k) → assign k x m = m ++ [(k, x)]
  | [], _ => rfl
  | (k', x') :: m, h => by
      have h1 : k' < k := h (k', x') (by simp)
      rw [assign, if_neg h1.not_gt, if_pos h1, assign_of_lt fun p hp => h p (by simp [hp])]
      rfl

/-- A bound at or above all keys reads the last entry. -/
lemma floor_of_le {t : κ} {m : List (κ × β)} (h : ∀ p ∈ m, p.1 ≤ t) :
    floor t m = m.getLast?.map Prod.snd := by
  rw [floor, List.takeWhile_eq_self_iff.mpr]
  simpa using h

end Container
