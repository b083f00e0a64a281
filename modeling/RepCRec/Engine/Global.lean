import Mathlib.Data.List.AList
import Mathlib.Data.List.FinRange
import Mathlib.Tactic.Common

/-!
The identifiers and constants of `global.h`, and the instructions of `instruction.h`.

A site id runs over `1..SITE_COUNT` and a variable id over `1..VAR_COUNT`; the bounds are
fields of `SiteId` and `VarId`, so every site and every variable of the store exists.
An instruction carries the integers that were written in it (`Instruction`), which
`VarId.ofInt?` and `SiteId.ofInt?` turn into ids; an integer that is none of these is the number of
a `MissingVar` or a `MissingSite`.
-/

namespace RepCRec

abbrev Timestamp := ℤ

abbrev TranId := ℤ

/-- The values of variables, `var_t`. -/
abbrev Value := ℤ

/-- An unordered map. -/
abbrev Dict (K V : Type) : Type := AList fun _ : K => V

lemma Dict.mem_of_lookup {K V : Type} [DecidableEq K] {m : Dict K V} {k : K} {x : V}
    (h : m.lookup k = some x) : k ∈ m := AList.lookup_isSome.mp (by rw [h]; rfl)

lemma Dict.exists_lookup {K V : Type} [DecidableEq K] {m : Dict K V} {k : K} (h : k ∈ m) :
    ∃ x, m.lookup k = some x := Option.isSome_iff_exists.mp (AList.lookup_isSome.mpr h)

/-- The elements of a list that is empty where there is none. -/
lemma Dict.mem_getD {K α : Type} [DecidableEq K] {m : Dict K (List α)} {k : K} {a : α} :
    a ∈ (m.lookup k).getD [] ↔ ∃ l, m.lookup k = some l ∧ a ∈ l := by
  cases m.lookup k <;> simp

lemma Dict.lookup_insert {K V : Type} [DecidableEq K] (m : Dict K V) (k k' : K) (x : V) :
    (m.insert k x).lookup k' = if k' = k then some x else m.lookup k' := by
  by_cases h : k' = k
  · subst h; simp
  · simp [h]

lemma Dict.lookup_erase {K V : Type} [DecidableEq K] (m : Dict K V) (k k' : K) :
    (AList.erase k m).lookup k' = if k' = k then none else m.lookup k' := by
  by_cases h : k' = k
  · subst h; simp
  · simp [h]

/-- The loop that erases the keys in a list. -/
lemma Dict.lookup_foldl_erase {K V : Type} [DecidableEq K] (l : List K) (m : Dict K V) (k' : K) :
    (l.foldl (fun m k => AList.erase k m) m).lookup k' =
      if k' ∈ l then none else m.lookup k' := by
  induction l generalizing m with
  | nil => simp
  | cons k l ih =>
      rw [List.foldl_cons, ih, Dict.lookup_erase]
      by_cases hl : k' ∈ l
      · rw [if_pos hl, if_pos (List.mem_cons_of_mem k hl)]
      · rw [if_neg hl]
        exact if_congr (by simp [hl]) rfl rfl

def siteCount : ℕ := 10

def varCount : ℕ := 20

@[ext]
structure SiteId where
  id : ℕ
  one_le : 1 ≤ id
  le_siteCount : id ≤ siteCount
deriving DecidableEq

@[ext]
structure VarId where
  id : ℕ
  one_le : 1 ≤ id
  le_varCount : id ≤ varCount
deriving DecidableEq

namespace SiteId

/-- The sites in the order of the loops `for sid = 1; sid <= SITE_COUNT; ++sid`. -/
def all : List SiteId :=
  (List.finRange siteCount).map fun i : Fin siteCount => ⟨i.val + 1, Nat.le_add_left 1 i, i.isLt⟩

@[simp] lemma mem_all (s : SiteId) : s ∈ all := by
  refine List.mem_map.mpr ⟨⟨s.id - 1, ?_⟩, List.mem_finRange _, ?_⟩
  · have h1 := s.one_le
    have h2 := s.le_siteCount
    omega
  · ext
    exact Nat.sub_add_cancel s.one_le

/-- The site with the given number, if there is one. -/
def ofInt? (n : ℤ) : Option SiteId :=
  if h : 1 ≤ n.toNat ∧ n.toNat ≤ siteCount then some ⟨n.toNat, h.1, h.2⟩ else none

lemma ofInt?_eq_none {n : ℤ} : ofInt? n = none ↔ ¬(1 ≤ n ∧ n ≤ siteCount) := by
  rw [ofInt?]
  split_ifs with h
  · simp only [false_iff, not_not]
    omega
  · simp only [true_iff]
    omega

end SiteId

namespace VarId

/-- The variables in the order of the maps of a site. -/
def all : List VarId :=
  (List.finRange varCount).map fun i : Fin varCount => ⟨i.val + 1, Nat.le_add_left 1 i, i.isLt⟩

@[simp] lemma mem_all (v : VarId) : v ∈ all := by
  refine List.mem_map.mpr ⟨⟨v.id - 1, ?_⟩, List.mem_finRange _, ?_⟩
  · have h1 := v.one_le
    have h2 := v.le_varCount
    omega
  · ext
    exact Nat.sub_add_cancel v.one_le

/-- `(var_id & 0x01) == 1`: the variable has a single copy. -/
def isOdd (v : VarId) : Bool := v.id % 2 == 1

/-- `1 + var_id % 10`, the site of the only copy of an odd variable. -/
def home (v : VarId) : SiteId :=
  ⟨1 + v.id % 10, Nat.le_add_right 1 _, by
    have h : v.id % 10 < 10 := Nat.mod_lt _ (by decide)
    rw [siteCount]
    omega⟩

/-- The variable with the given number, if there is one. -/
def ofInt? (n : ℤ) : Option VarId :=
  if h : 1 ≤ n.toNat ∧ n.toNat ≤ varCount then some ⟨n.toNat, h.1, h.2⟩ else none

lemma ofInt?_eq_none {n : ℤ} : ofInt? n = none ↔ ¬(1 ≤ n ∧ n ≤ varCount) := by
  rw [ofInt?]
  split_ifs with h
  · simp only [false_iff, not_not]
    omega
  · simp only [true_iff]
    omega

end VarId

/-- The number of a site that does not exist. -/
@[ext]
structure MissingSite where
  id : ℤ
  missing : SiteId.ofInt? id = none
deriving DecidableEq

/-- The number of a variable that no site has. -/
@[ext]
structure MissingVar where
  id : ℤ
  missing : VarId.ofInt? id = none
deriving DecidableEq

namespace MissingVar

/-- `(var_id & 0x01) == 1`, also for negative numbers. -/
def isOdd (v : MissingVar) : Bool := v.id % 2 == 1

/-- The site `1 + var_id % 10`, if there is one: the remainder has the sign of the number. -/
def home? (v : MissingVar) : Option SiteId := SiteId.ofInt? (1 + v.id.tmod 10)

end MissingVar

/-- `lock_status`. -/
inductive LockState where
  | unknown
  | hasReadLock
  | hasWriteLock
  | needToWait
  | siteUnavailable
  | hasReadWriteLock
  | availableToAssign
deriving DecidableEq

/-- `LockStatus`, the answer of the lock manager to a request for a lock. -/
structure LockStatus where
  siteIdSet : List SiteId := []
  status : LockState := .unknown
  ownerIdSet : List TranId := []

/-- A parsed instruction, with one constructor for each `InstructType`. -/
inductive Instruction where
  | unknown
  | begin (tranId : ℤ)
  | beginRO (tranId : ℤ)
  | read (tranId varId : ℤ)
  | write (tranId varId varValue : ℤ)
  | recover (siteId : ℤ)
  | fail (siteId : ℤ)
  | dump
  | finish (tranId : ℤ)
deriving DecidableEq

/-- What stops the engine: the exceptions it throws and the accesses that are undefined. -/
inductive Fault where
  /-- `std::invalid_argument("error status!")`. -/
  | errorStatus
  /-- `std::invalid_argument("Unknown instruction type.")`. -/
  | unknownInstruction
  /-- `std::out_of_range`, thrown by `transactions_.at`. -/
  | outOfRange
  /-- A null pointer is dereferenced. -/
  | nullPointer
  /-- An iterator is used after its element was erased, or a dereferenced end iterator. -/
  | invalidIterator
  /-- A loop or a recursion does not end. -/
  | diverged
deriving DecidableEq

end RepCRec
