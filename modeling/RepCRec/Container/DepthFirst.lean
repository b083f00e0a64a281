import Mathlib.Data.List.Chain
import Mathlib.Data.List.Perm.Subperm
import Mathlib.Logic.Relation

/-!
Depth-first search for a cycle. A search stands at the head of a path and has left some nodes
behind, from which no cycle is reached (`Search`). It may enter a node that it has not met
(`Search.enter`), and leave the head of the path when it has left all its targets (`Search.leave`).
An edge from the head back to the path closes a cycle (`Search.cycle`); when all nodes with an edge
are left, there is none (`Search.acyclic`).
-/

namespace Container

open Relation (TransGen ReflTransGen)

variable {V : Type*} {R : V → V → Prop} {path : List V} {left : V → Prop} {a b : V}

/-- No node is reached from itself. -/
def Acyclic (R : V → V → Prop) : Prop := ∀ a, ¬TransGen R a a

lemma Acyclic.mono {R' : V → V → Prop} (h : Acyclic R) (hR : ∀ {a b}, R' a b → R a b) :
    Acyclic R' := fun a hc => h a (Relation.TransGen.mono (fun _ _ => hR) _ _ hc)

/-- Edges into a node without targets close no cycle. -/
lemma Acyclic.add_sink {R' : V → V → Prop} {c : V} (h : Acyclic R) (hc : ∀ {b}, ¬R' c b)
    (hR : ∀ {a b}, R' a b → b ≠ c → R a b) : Acyclic R' := by
  have hpath : ∀ {a b}, TransGen R' a b → b ≠ c → TransGen R a b := by
    intro a b hab
    induction hab with
    | single hab => exact fun hb => .single (hR hab hb)
    | @tail b d _ hbd ih =>
        intro hd
        have hb : b ≠ c := by
          rintro rfl
          exact hc hbd
        exact (ih hb).tail (hR hbd hd)
  intro a hcyc
  have ha : a ≠ c := by
    rintro rfl
    obtain ⟨b, hab, -⟩ := Relation.TransGen.head'_iff.mp hcyc
    exact hc hab
  exact h a (hpath hcyc ha)

/-- Without cycles, from one of finitely many nodes none of them is reached. -/
lemma Acyclic.exists_sink (h : Acyclic R) :
    ∀ {ns : List V}, ns ≠ [] → ∃ a ∈ ns, ∀ b ∈ ns, ¬TransGen R a b
  | [c], _ => ⟨c, by simp, by simpa using h c⟩
  | c :: d :: ns, _ => by
      have hne : d :: ns ≠ [] := List.cons_ne_nil d ns
      obtain ⟨m, hm, hno⟩ := h.exists_sink hne
      by_cases hc : TransGen R m c
      · refine ⟨c, List.mem_cons_self, fun b hb hcb => ?_⟩
        rcases List.mem_cons.mp hb with rfl | hb
        · exact h b hcb
        · exact hno b hb (hc.trans hcb)
      · refine ⟨m, List.mem_cons_of_mem c hm, fun b hb hmb => ?_⟩
        rcases List.mem_cons.mp hb with rfl | hb
        · exact hc hmb
        · exact hno b hb hmb

/-- The search stands at the head of the path, and has left the nodes `left`. -/
structure Search (R : V → V → Prop) (path : List V) (left : V → Prop) : Prop where
  chain : path.IsChain fun a b => R b a
  nodup : path.Nodup
  apart : ∀ {a}, a ∈ path → ¬left a
  closed : ∀ {a b}, left a → R a b → left b
  no_cycle : ∀ {a}, left a → ¬TransGen R a a

namespace Search

lemma start (R : V → V → Prop) : Search R [] fun _ => False where
  chain := List.IsChain.nil
  nodup := List.nodup_nil
  apart h := by cases h
  closed h := h.elim
  no_cycle h := h.elim

/-- Every node of the path leads to its last one. -/
lemma reaches (h : Search R (b :: path) left) (ha : a ∈ b :: path) : ReflTransGen R a b := by
  have hc := h.chain
  clear h
  induction path generalizing b with
  | nil =>
      rw [List.mem_singleton.mp ha]
  | cons c path ih =>
      obtain ⟨hcb, hc⟩ := List.isChain_cons_cons.mp hc
      rcases List.mem_cons.mp ha with rfl | ha
      · exact .refl
      · exact (ih ha hc).tail hcb

/-- What a left node leads to is left too. -/
lemma closed_reaches (h : Search R path left) (ha : left a) (hab : ReflTransGen R a b) :
    left b := by
  induction hab with
  | refl => exact ha
  | tail _ hbc ih => exact h.closed ih hbc

lemma enter (h : Search R path left) (ha : ¬left a) (hp : a ∉ path)
    (hedge : ∀ b ∈ path.head?, R b a) : Search R (a :: path) left where
  chain := by
    cases path with
    | nil => exact .singleton a
    | cons b path => exact List.isChain_cons_cons.mpr ⟨hedge b rfl, h.chain⟩
  nodup := List.nodup_cons.mpr ⟨hp, h.nodup⟩
  apart hx := by
    rcases List.mem_cons.mp hx with rfl | hx
    · exact ha
    · exact h.apart hx
  closed := h.closed
  no_cycle := h.no_cycle

lemma leave (h : Search R (a :: path) left) (ht : ∀ b, R a b → left b) :
    Search R path fun b => left b ∨ b = a where
  chain := h.chain.tail
  nodup := (List.nodup_cons.mp h.nodup).2
  apart := by
    rintro b hb (hl | rfl)
    · exact h.apart (List.mem_cons_of_mem a hb) hl
    · exact (List.nodup_cons.mp h.nodup).1 hb
  closed := by
    rintro b c (hl | rfl) hbc
    · exact Or.inl (h.closed hl hbc)
    · exact Or.inl (ht c hbc)
  no_cycle := by
    rintro b (hl | rfl) hc
    · exact h.no_cycle hl hc
    · obtain ⟨c, hbc, hcb⟩ := Relation.TransGen.head'_iff.mp hc
      exact h.apart List.mem_cons_self (h.closed_reaches (ht c hbc) hcb)

/-- The path has no node twice, so it is not longer than the list of all nodes. -/
lemma length_le (h : Search R path left) {ns : List V} (hp : path ⊆ ns) :
    path.length ≤ ns.length :=
  (List.subperm_of_subset h.nodup hp).length_le

/-- **An edge back to the path** closes a cycle. -/
theorem cycle (h : Search R (a :: path) left) (hb : b ∈ a :: path) (hab : R a b) :
    TransGen R b b :=
  .tail' (h.reaches hb) hab

/-- **There is no cycle** when all nodes with an edge are left. -/
theorem acyclic (h : Search R [] left) (hall : ∀ a b, R a b → left a) : Acyclic R := by
  intro a hc
  obtain ⟨b, hab, -⟩ := Relation.TransGen.head'_iff.mp hc
  exact h.no_cycle (hall a b hab) hc

end Search

end Container
