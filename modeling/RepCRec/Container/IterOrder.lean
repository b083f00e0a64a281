import Mathlib.Data.List.Nodup
import Mathlib.Data.List.Perm.Basic
import Mathlib.Data.List.Rotate

/-!
Loops over unordered containers. The order in which such a loop visits the elements
is not specified, so it is a parameter: an `IterOrder` rearranges the stored elements
of any container, and what is proved for every `IterOrder` holds for every order.
-/

namespace Container

/-- An order in which loops visit the elements of unordered containers. -/
structure IterOrder where
  visit : {α : Type} → List α → List α
  perm : ∀ {α : Type} (l : List α), (visit l).Perm l

namespace IterOrder

/-- The elements in the order in which they are stored. -/
def stored : IterOrder := ⟨fun l => l, fun l => List.Perm.refl l⟩

/-- The elements in the opposite of the order in which they are stored. -/
def reversed : IterOrder := ⟨fun l => l.reverse, fun l => List.reverse_perm l⟩

@[simp] lemma mem_visit (o : IterOrder) {α : Type} {a : α} {l : List α} :
    a ∈ o.visit l ↔ a ∈ l := (o.perm l).mem_iff

lemma nodup_visit (o : IterOrder) {α : Type} {l : List α} (h : l.Nodup) : (o.visit l).Nodup :=
  (o.perm l).nodup_iff.mpr h

@[simp] lemma visit_eq_nil (o : IterOrder) {α : Type} {l : List α} :
    o.visit l = [] ↔ l = [] :=
  ⟨fun h => ((o.perm l).symm.trans (by rw [h])).eq_nil, fun h => by
    subst h; exact (o.perm []).eq_nil⟩

/-- Any element of a container may be visited first. -/
lemma exists_visit_eq_cons {α : Type} {a : α} {l : List α} (h : a ∈ l) :
    ∃ (o : IterOrder) (l' : List α), o.visit l = a :: l' := by
  obtain ⟨l₁, l₂, rfl⟩ := List.append_of_mem h
  refine ⟨⟨fun l => l.rotate l₁.length, fun l => List.rotate_perm l _⟩, l₂ ++ l₁, ?_⟩
  exact List.rotate_append_length_eq l₁ (a :: l₂)

end IterOrder

end Container
