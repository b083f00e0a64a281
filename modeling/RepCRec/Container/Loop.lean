import Mathlib.Data.List.Induction
import Mathlib.Tactic.Common

/-!
Computations that may fail, in `Except`: a sequence that succeeds succeeds in each part, and
the rules for loops that may fail.
-/

namespace Container

variable {ε α β : Type}

/-- A computation that succeeds in two parts. -/
lemma bind_eq_ok {x : Except ε α} {f : α → Except ε β} {b : β} :
    x >>= f = .ok b ↔ ∃ a, x = .ok a ∧ f a = .ok b := by
  cases x with
  | error e => simp [bind, Except.bind]
  | ok a => simp [bind, Except.bind]

/-- A computation that fails in one of two parts. -/
lemma bind_eq_error {x : Except ε α} {f : α → Except ε β} {e : ε} :
    x >>= f = .error e ↔ x = .error e ∨ ∃ a, x = .ok a ∧ f a = .error e := by
  cases x with
  | error e => simp [bind, Except.bind]
  | ok a => simp [bind, Except.bind]

@[simp] lemma pure_eq_ok {a b : α} : (pure a : Except ε α) = .ok b ↔ a = b := by
  simp [pure, Except.pure]

@[simp] lemma ok_bind {a : α} {f : α → Except ε β} : (Except.ok a >>= f) = f a := rfl

@[simp] lemma error_bind {e : ε} {f : α → Except ε β} :
    ((Except.error e : Except ε α) >>= f) = .error e := rfl

/-- What every iteration of a loop keeps is kept by the loop. -/
lemma foldlM_induction {P : β → Prop} {f : β → α → Except ε β} {l : List α}
    (hf : ∀ a ∈ l, ∀ b b', P b → f b a = .ok b' → P b') {b b' : β} (hb : P b)
    (h : l.foldlM f b = .ok b') : P b' := by
  induction l generalizing b with
  | nil =>
      rw [List.foldlM_nil, pure_eq_ok] at h
      exact h ▸ hb
  | cons a l ih =>
      rw [List.foldlM_cons, bind_eq_ok] at h
      obtain ⟨b₁, h1, h2⟩ := h
      exact ih (fun c hc => hf c (List.mem_cons_of_mem a hc)) (hf a (by simp) b b₁ hb h1) h2

/-- A loop succeeds when its iterations succeed and keep what they need. -/
lemma exists_foldlM {P : β → Prop} {f : β → α → Except ε β}
    (hf : ∀ b a, P b → ∃ b', f b a = .ok b' ∧ P b') (l : List α) {b : β} (hb : P b) :
    ∃ b', l.foldlM f b = .ok b' ∧ P b' := by
  induction l generalizing b with
  | nil => exact ⟨b, rfl, hb⟩
  | cons a l ih =>
      obtain ⟨b₁, h1, hb₁⟩ := hf b a hb
      obtain ⟨b₂, h2, hb₂⟩ := ih hb₁
      exact ⟨b₂, by rw [List.foldlM_cons, h1, ok_bind, h2], hb₂⟩

/-- What every iteration of a loop keeps is kept by the loop. -/
lemma foldl_induction {P : β → Prop} {f : β → α → β} {l : List α}
    (hf : ∀ a ∈ l, ∀ b, P b → P (f b a)) {b : β} (hb : P b) : P (l.foldl f b) := by
  induction l generalizing b with
  | nil => exact hb
  | cons a l ih =>
      exact ih (fun c hc => hf c (List.mem_cons_of_mem a hc)) (hf a (by simp) b hb)

/-- What relates the states before and after every iteration of a loop relates the states
before and after the loop, for a preorder. -/
lemma foldl_rel {R : β → β → Prop} {f : β → α → β} (hrefl : ∀ b, R b b)
    (htrans : ∀ {a b c}, R a b → R b c → R a c) (hf : ∀ b a, R b (f b a)) (l : List α) (b : β) :
    R b (l.foldl f b) :=
  foldl_induction (fun a _ c hc => htrans hc (hf c a)) (hrefl b)

/-- What relates the states before and after every iteration of a loop relates the states
before and after the loop, for a preorder. -/
lemma foldlM_rel {R : β → β → Prop} {f : β → α → Except ε β} {l : List α}
    (hrefl : ∀ b, R b b) (htrans : ∀ {a b c}, R a b → R b c → R a c)
    (hf : ∀ a b b', f b a = .ok b' → R b b') {b b' : β} (h : l.foldlM f b = .ok b') : R b b' :=
  foldlM_induction (fun a _ c c' hc h' => htrans hc (hf a c c' h')) (hrefl b) h

/-- A loop with an invariant `P`, whose iterations change the state along a preorder `R` and
each establish something about their element that lasts along `R`: at its end the loop has
established it for all elements. -/
lemma foldl_establishes {P : β → Prop} {R : β → β → Prop} {Q : α → β → Prop} {f : β → α → β}
    (hrefl : ∀ b, R b b) (htrans : ∀ {a b c}, R a b → R b c → R a c)
    (hlast : ∀ {a b c}, Q a b → R b c → Q a c)
    (hf : ∀ b a, P b → P (f b a) ∧ R b (f b a) ∧ Q a (f b a)) (l : List α) {b : β} (hb : P b) :
    P (l.foldl f b) ∧ R b (l.foldl f b) ∧ ∀ a ∈ l, Q a (l.foldl f b) := by
  induction l generalizing b with
  | nil => exact ⟨hb, hrefl b, by simp⟩
  | cons a l ih =>
      obtain ⟨hP, hR, hQ⟩ := hf b a hb
      obtain ⟨h1, h2, h3⟩ := ih hP
      refine ⟨h1, htrans hR h2, fun c hc => ?_⟩
      rcases List.mem_cons.mp hc with rfl | hc'
      · exact hlast hQ h2
      · exact h3 c hc'

end Container
