import Mathlib.Data.List.Basic
import Mathlib.Data.List.TakeWhile
import Mathlib.Tactic.NormNum

/-!
Strings of the C++ library, as lists of characters. Positions are of the unsigned type `size_t`,
whose arithmetic wraps around (`SizeT`); a search that fails returns `npos`, and the access to a
position behind the terminating null is undefined, an error here. `stoi` reads a decimal number
(`stoi_decimal`), and `idxOf`-style facts about texts with one pair of parentheses are
`findFirstOf_append_cons` and its companions.
-/

namespace Container

/-- What stops a function on strings: the standard exceptions, and an access that is undefined. -/
inductive StringFault where
  /-- `std::invalid_argument`. -/
  | invalidArgument
  /-- `std::out_of_range`. -/
  | outOfRange
  /-- An element behind the end is read. -/
  | outOfBounds
deriving DecidableEq

namespace StdString

/-! ### Positions -/

/-- A number as a `size_t` of 64 bits. -/
def wrap (n : ℕ) : ℕ := n % 2 ^ 64

/-- The difference of two numbers of type `size_t`. -/
def wrapSub (m n : ℕ) : ℕ := wrap (m + (2 ^ 64 - wrap n))

/-- `std::string::npos`. -/
def npos : ℕ := 2 ^ 64 - 1

lemma wrap_of_lt {n : ℕ} (h : n < 2 ^ 64) : wrap n = n := Nat.mod_eq_of_lt h

lemma wrapSub_of_le {m n : ℕ} (hm : m < 2 ^ 64) (h : n ≤ m) : wrapSub m n = m - n := by
  rw [wrapSub, wrap_of_lt (lt_of_le_of_lt h hm), wrap]
  omega

/-! ### Searches and substrings -/

/-- `find_first_of` for one character. -/
def findFirstOf (c : Char) (s : List Char) : ℕ := if c ∈ s then s.idxOf c else npos

/-- `s.find(t) == 0`. -/
def startsWith (s t : List Char) : Bool := t.isPrefixOf s

/-- `substr`, which throws when the position is behind the end. -/
def substr (s : List Char) (pos n : ℕ) : Except StringFault (List Char) :=
  if s.length < pos then .error .outOfRange else .ok ((s.drop pos).take n)

/-- `substr` with one argument, the rest of the string. -/
def substrFrom (s : List Char) (pos : ℕ) : Except StringFault (List Char) :=
  if s.length < pos then .error .outOfRange else .ok (s.drop pos)

/-- The elements from a position on, with the terminating null. -/
def elementsFrom (s : List Char) (pos : ℕ) : List Char := (s ++ [Char.ofNat 0]).drop pos

lemma findFirstOf_append_cons {c : Char} {s t : List Char} (h : c ∉ s) :
    findFirstOf c (s ++ c :: t) = s.length := by
  rw [findFirstOf, if_pos (by simp), List.idxOf_append_of_notMem h, List.idxOf_cons_self, add_zero]

lemma substr_ne_outOfBounds (s : List Char) (pos n : ℕ) : substr s pos n ≠ .error .outOfBounds := by
  rw [substr]
  split_ifs <;> simp

lemma substr_append {s t u : List Char} {n : ℕ} (hn : n = t.length) :
    substr (s ++ (t ++ u)) s.length n = .ok t := by
  rw [substr, if_neg (by simp), List.drop_left, hn, List.take_left]

/-! ### Numbers -/

def isSpace (c : Char) : Bool := c.toNat == 32 || (decide (9 ≤ c.toNat) && decide (c.toNat ≤ 13))

/-- The sign of a number, and what follows it. -/
def sign : List Char → ℤ × List Char
  | '-' :: s => (-1, s)
  | '+' :: s => (1, s)
  | s => (1, s)

/-- The number is of the type `int` of 32 bits. -/
def IsInt (n : ℤ) : Prop := -2 ^ 31 ≤ n ∧ n < 2 ^ 31

instance (n : ℤ) : Decidable (IsInt n) := inferInstanceAs (Decidable (_ ∧ _))

/-- `std::stoi`: white space, a sign and decimal digits are read, and the rest is ignored. -/
def stoi (s : List Char) : Except StringFault ℤ :=
  let e := sign (s.dropWhile isSpace)
  let digits := e.2.takeWhile Char.isDigit
  if digits = [] then .error .invalidArgument
  else
    let n := e.1 * Nat.ofDigitChars 10 digits 0
    if IsInt n then .ok n else .error .outOfRange

/-- A number in decimal digits. -/
def decimal (n : ℤ) : List Char :=
  if n < 0 then '-' :: Nat.toDigits 10 n.natAbs else Nat.toDigits 10 n.natAbs

lemma isDigit_of_mem_decimal {n : ℤ} {c : Char} (h : c ∈ decimal n) :
    c = '-' ∨ c.isDigit = true := by
  have hd : c ∈ Nat.toDigits 10 n.natAbs → c.isDigit = true :=
    fun h => Nat.isDigit_of_mem_toDigits (by decide) (by decide) h
  rw [decimal] at h
  split_ifs at h
  · exact (List.mem_cons.mp h).imp id hd
  · exact Or.inr (hd h)

/-- A number has no other characters than digits and the sign. -/
lemma notMem_decimal {n : ℤ} {c : Char} (hm : c ≠ '-') (hd : c.isDigit = false) :
    c ∉ decimal n := by
  intro h
  rcases isDigit_of_mem_decimal h with heq | heq
  · exact hm heq
  · rw [hd] at heq
    cases heq

/-- Different numbers have different texts. -/
lemma decimal_injective : Function.Injective decimal := by
  have hdigits : ∀ {a b : ℕ}, Nat.toDigits 10 a = Nat.toDigits 10 b → a = b := by
    intro a b h
    rw [← Nat.ofDigitChars_ten_toDigits (n := a), h, Nat.ofDigitChars_ten_toDigits]
  have hsign : ∀ n : ℤ, '-' ∈ decimal n ↔ n < 0 := by
    intro n
    rw [decimal]
    split_ifs with hn
    · exact iff_of_true List.mem_cons_self hn
    · refine iff_of_false (fun h => ?_) hn
      exact absurd (Nat.isDigit_of_mem_toDigits (by decide) (by decide) h) (by decide)
  intro n m h
  have hlt : n < 0 ↔ m < 0 := by rw [← hsign, h, hsign]
  rw [decimal, decimal] at h
  by_cases hn : n < 0
  · rw [if_pos hn, if_pos (hlt.mp hn), List.cons.injEq] at h
    have habs := hdigits h.2
    omega
  · rw [if_neg hn, if_neg (hlt.not.mp hn)] at h
    have habs := hdigits h
    omega

/-- The text of an `int` is short. -/
lemma length_decimal_le {n : ℤ} (h : IsInt n) : (decimal n).length ≤ 11 := by
  have hlt : n.natAbs < 10 ^ 10 := by
    obtain ⟨h1, h2⟩ := h
    norm_num at h1 h2 ⊢
    omega
  have hlen := (Nat.length_toDigits_le_iff (b := 10) (by decide) (by decide)).mpr hlt
  rw [decimal]
  split_ifs
  · rw [List.length_cons]
    omega
  · omega

/-- Digits are neither white space nor signs. -/
lemma sign_toDigits (n : ℕ) : sign ((Nat.toDigits 10 n).dropWhile isSpace) =
    (1, Nat.toDigits 10 n) := by
  have hall : ∀ c ∈ Nat.toDigits 10 n, c.isDigit = true :=
    fun c h => Nat.isDigit_of_mem_toDigits (by decide) (by decide) h
  obtain ⟨c, s, hs⟩ := List.exists_cons_of_ne_nil (Nat.toDigits_ne_nil (n := n) (b := 10))
  have hc : c.isDigit = true := hall c (hs ▸ List.mem_cons_self)
  have hspace : isSpace c = false := by
    rw [Char.isDigit_iff_toNat] at hc
    have h1 : '0'.toNat = 48 := rfl
    simp only [isSpace, Bool.or_eq_false_iff, beq_eq_false_iff_ne, Bool.and_eq_false_iff,
      decide_eq_false_iff_not]
    omega
  rw [hs, List.dropWhile_cons, hspace, if_neg Bool.false_ne_true, sign]
  · rintro s' ⟨rfl, -⟩
    exact absurd hc (by decide)
  · rintro s' ⟨rfl, -⟩
    exact absurd hc (by decide)

lemma stoi_ne_outOfBounds (s : List Char) : stoi s ≠ .error .outOfBounds := by
  rw [stoi]
  dsimp only
  split_ifs <;> simp

/-- **`stoi` reads a decimal number.** -/
theorem stoi_decimal {n : ℤ} (h : IsInt n) : stoi (decimal n) = .ok n := by
  have hsign : sign ((decimal n).dropWhile isSpace) =
      (if n < 0 then -1 else 1, Nat.toDigits 10 n.natAbs) := by
    rw [decimal]
    split_ifs with hn
    · rfl
    · exact sign_toDigits _
  have hdigits : (Nat.toDigits 10 n.natAbs).takeWhile Char.isDigit = Nat.toDigits 10 n.natAbs :=
    List.takeWhile_eq_self_iff.mpr
      fun c hc => Nat.isDigit_of_mem_toDigits (by decide) (by decide) hc
  have hval : (if n < 0 then -1 else 1) * ((n.natAbs : ℕ) : ℤ) = n := by
    split_ifs <;> omega
  rw [stoi, hsign]
  dsimp only
  rw [hdigits, if_neg Nat.toDigits_ne_nil, Nat.ofDigitChars_ten_toDigits, hval, if_pos h]

end StdString

end Container
