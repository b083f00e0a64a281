import RepCRec.Container.Loop
import Mathlib.Data.List.Perm.Basic

/-!
Computations that agree: they fail with the same error, or succeed with related results (`Agree`).
Agreement is kept by sequencing and by loops over the same list. A loop also agrees with the loop
over any permutation of its list, when two iterations agree with the same two in the other order
(`Agree.foldlM_perm`, and `foldl_perm` for loops that cannot fail).
-/

namespace Container

variable {ε α β γ δ : Type}

/-- The same error, or related results. -/
inductive Agree (R : α → β → Prop) : Except ε α → Except ε β → Prop where
  | ok {a b} : R a b → Agree R (.ok a) (.ok b)
  | error (e) : Agree R (.error e) (.error e)

namespace Agree

variable {R : α → β → Prop} {x : Except ε α} {y : Except ε β}

lemma refl {R : α → α → Prop} (h : ∀ a, R a a) (x : Except ε α) : Agree R x x := by
  cases x with
  | ok a => exact .ok (h a)
  | error e => exact .error e

lemma trans {R : α → α → Prop} (h : ∀ {a b c}, R a b → R b c → R a c) {x y z : Except ε α}
    (hxy : Agree R x y) (hyz : Agree R y z) : Agree R x z := by
  cases hxy with
  | ok hab =>
      cases hyz with
      | ok hbc => exact .ok (h hab hbc)
  | error e => exact hyz

lemma mono {S : α → β → Prop} (h : Agree R x y) (hRS : ∀ a b, R a b → S a b) : Agree S x y := by
  cases h with
  | ok hab => exact .ok (hRS _ _ hab)
  | error e => exact .error e

/-- The continuations agree where the first computations succeed. -/
lemma bind_of_ok {S : γ → δ → Prop} {f : α → Except ε γ} {g : β → Except ε δ} (h : Agree R x y)
    (hfg : ∀ a b, x = .ok a → R a b → Agree S (f a) (g b)) : Agree S (x >>= f) (y >>= g) := by
  cases h with
  | ok hab => exact hfg _ _ rfl hab
  | error e => exact .error e

lemma bind {S : γ → δ → Prop} {f : α → Except ε γ} {g : β → Except ε δ} (h : Agree R x y)
    (hfg : ∀ a b, R a b → Agree S (f a) (g b)) : Agree S (x >>= f) (y >>= g) :=
  h.bind_of_ok fun a b _ => hfg a b

lemma pure {a : α} {b : β} (h : R a b) :
    Agree R (Pure.pure a : Except ε α) (Pure.pure b) := .ok h

lemma mapError {ε' : Type} (h : Agree R x y) (f : ε → ε') :
    Agree R (x.mapError f) (y.mapError f) := by
  cases h with
  | ok hab => exact .ok hab
  | error e => exact .error (f e)

/-- Computations with the same results. -/
lemma eq {x y : Except ε α} (h : Agree Eq x y) : x = y := by
  cases h with
  | ok hab => rw [hab]
  | error e => rfl

/-- Loops over the same list whose iterations agree. -/
lemma foldlM {f : α → γ → Except ε α} {g : β → γ → Except ε β}
    (hfg : ∀ c a b, R a b → Agree R (f a c) (g b c)) (l : List γ) {a : α} {b : β} (hab : R a b) :
    Agree R (l.foldlM f a) (l.foldlM g b) := by
  induction l generalizing a b with
  | nil => exact .pure hab
  | cons c l ih =>
      rw [List.foldlM_cons, List.foldlM_cons]
      exact (hfg c a b hab).bind fun a₁ b₁ h₁ => ih h₁

/-- A loop and the same loop over a permutation of its list. `P` is what holds before the
iterations for the elements of a list, and two iterations may be swapped where it holds. -/
theorem foldlM_perm {R : α → α → Prop} {P : List γ → α → Prop} {f : α → γ → Except ε α}
    (hrefl : ∀ a, R a a) (htrans : ∀ {a b c}, R a b → R b c → R a c)
    (hcongr : ∀ c a b, R a b → Agree R (f a c) (f b c))
    (hperm : ∀ {l l' a}, l.Perm l' → P l a → P l' a)
    (hstep : ∀ {c l a a'}, P (c :: l) a → f a c = .ok a' → P l a')
    (hswap : ∀ {c d l a}, P (c :: d :: l) a →
      Agree R (f a c >>= fun a => f a d) (f a d >>= fun a => f a c))
    {l l' : List γ} (hl : l.Perm l') {a : α} (hP : P l a) :
    Agree R (l.foldlM f a) (l'.foldlM f a) := by
  induction hl generalizing a with
  | nil => exact .pure (hrefl a)
  | cons c _ ih =>
      rw [List.foldlM_cons, List.foldlM_cons]
      cases hc : f a c with
      | error e => exact .error e
      | ok a' => exact ih (hstep hP hc)
  | swap c d l =>
      simp only [List.foldlM_cons, ← bind_assoc]
      exact (hswap hP).bind fun a₁ b₁ h₁ => foldlM hcongr l h₁
  | trans h _ ih ih' => exact Agree.trans (R := R) htrans (ih hP) (ih' (hperm h hP))

end Agree

/-- A loop that cannot fail and the same loop over a permutation of its list. -/
lemma foldl_perm {R : α → α → Prop} {f : α → γ → α} (hrefl : ∀ a, R a a)
    (htrans : ∀ {a b c}, R a b → R b c → R a c) (hcongr : ∀ c a b, R a b → R (f a c) (f b c))
    {l l' : List γ} (hl : l.Perm l')
    (hswap : ∀ c ∈ l, ∀ d ∈ l, ∀ a, R (f (f a c) d) (f (f a d) c)) {a b : α} (hab : R a b) :
    R (l.foldl f a) (l'.foldl f b) := by
  have hlist : ∀ (l : List γ) {a b : α}, R a b → R (l.foldl f a) (l.foldl f b) := by
    intro l
    induction l with
    | nil => exact fun h => h
    | cons c l ih => exact fun h => ih (hcongr c _ _ h)
  refine htrans (hlist l hab) ?_
  clear hab
  induction hl generalizing b with
  | nil => exact hrefl b
  | cons c _ ih =>
      exact ih fun d hd e he => hswap d (List.mem_cons_of_mem c hd) e (List.mem_cons_of_mem c he)
  | swap c d l => exact hlist l (hswap d (by simp) c (by simp) b)
  | trans h _ ih ih' =>
      exact htrans (ih hswap)
        (ih' fun c hc d hd => hswap c (h.mem_iff.mpr hc) d (h.mem_iff.mpr hd))

/-- Two loops whose iterations commute. -/
lemma foldl_comm {f : α → β → α} {g : α → γ → α} (h : ∀ a b c, g (f a b) c = f (g a c) b)
    (l : List β) (l' : List γ) (a : α) :
    l'.foldl g (l.foldl f a) = l.foldl f (l'.foldl g a) := by
  induction l' generalizing a with
  | nil => rfl
  | cons c l' ih =>
      have hc : g (l.foldl f a) c = l.foldl f (g a c) :=
        (List.foldl_hom (fun a => g a c) fun a b => (h a b c).symm).symm
      rw [List.foldl_cons, List.foldl_cons, hc, ih]

end Container
