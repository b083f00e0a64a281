import RepCRec.Container.Sorted
import RepCRec.Engine.Global

/-!
The stored data: a copy of a variable with its versions and its locks (`variable.cc`), a
site with its copies and their availability (`site.cc`), and the data of a transaction
(`transaction.h`). Transactions appear in locks only through their ids.
-/

namespace RepCRec

/-! ### Variables -/

/-- A copy of a variable. -/
structure Variable where
  value : Value
  versions : List (Timestamp × Value)
  exclusiveLockOwner : Option TranId := none
  sharedLockOwners : List TranId := []

namespace Variable

/-- The copy of the variable `v` when a site is made. -/
def initial (v : VarId) : Variable := { value := v.id * 10, versions := [(-1, v.id * 10)] }

/-- `Variable::add_shared_transaction`. -/
def addSharedTransaction (x : Variable) (T : TranId) : Variable :=
  if T ∈ x.sharedLockOwners then x else { x with sharedLockOwners := T :: x.sharedLockOwners }

/-- An owner that is present is not replaced. -/
def setExclusiveTransaction (x : Variable) (T : TranId) : Variable :=
  if x.exclusiveLockOwner = none then { x with exclusiveLockOwner := some T } else x

/-- `Variable::remove_exclusive_owner`. -/
def removeExclusiveOwner (x : Variable) : Variable := { x with exclusiveLockOwner := none }

/-- `Variable::remove_shared_owner`. -/
def removeSharedOwner (x : Variable) (T : TranId) : Variable :=
  { x with sharedLockOwners := x.sharedLockOwners.erase T }

/-- The current value for the timestamp `-1`, else the version before the first one above the
timestamp; there is none when all versions are above it. -/
def getValue (x : Variable) (timestamp : Timestamp := -1) : Option Value :=
  if timestamp = -1 then some x.value else Container.floor timestamp x.versions

/-- `Variable::set_value`: the version map keeps the value under its timestamp. -/
def setValue (x : Variable) (value : Value) (timestamp : Timestamp) : Variable :=
  { x with value := value, versions := Container.assign timestamp value x.versions }

/-- `Variable::has_shared_lock`. -/
def hasSharedLock (x : Variable) (T : TranId) : Bool := decide (T ∈ x.sharedLockOwners)

/-- `Variable::has_exclusive_lock`. -/
def hasExclusiveLock (x : Variable) (T : TranId) : Bool := x.exclusiveLockOwner == some T

def hasSharedLockExcludeSelf (x : Variable) (T : TranId) : Bool :=
  !x.sharedLockOwners.isEmpty && !decide (T ∈ x.sharedLockOwners)

def hasExclusiveLockExcludeSelf (x : Variable) (T : TranId) : Bool :=
  x.exclusiveLockOwner.any fun T' => T' != T

section Locks

variable {x : Variable} {T T' : TranId}

@[simp] lemma value_addSharedTransaction : (x.addSharedTransaction T).value = x.value := by
  rw [addSharedTransaction]; split_ifs <;> rfl

@[simp] lemma value_setExclusiveTransaction : (x.setExclusiveTransaction T).value = x.value := by
  rw [setExclusiveTransaction]; split_ifs <;> rfl

@[simp] lemma exclusiveLockOwner_addSharedTransaction :
    (x.addSharedTransaction T).exclusiveLockOwner = x.exclusiveLockOwner := by
  rw [addSharedTransaction]; split_ifs <;> rfl

/-- A shared owner is added. -/
@[simp] lemma mem_addSharedTransaction :
    T' ∈ (x.addSharedTransaction T).sharedLockOwners ↔ T' ∈ x.sharedLockOwners ∨ T' = T := by
  rw [addSharedTransaction]
  split_ifs with h
  · exact ⟨Or.inl, fun h' => h'.elim id fun hT => hT ▸ h⟩
  · simp [or_comm]

/-- The shared owners are a set. -/
lemma nodup_addSharedTransaction (h : x.sharedLockOwners.Nodup) :
    (x.addSharedTransaction T).sharedLockOwners.Nodup := by
  rw [addSharedTransaction]
  split_ifs with hT
  · exact h
  · exact List.nodup_cons.mpr ⟨hT, h⟩

@[simp] lemma sharedLockOwners_setExclusiveTransaction :
    (x.setExclusiveTransaction T).sharedLockOwners = x.sharedLockOwners := by
  rw [setExclusiveTransaction]; split_ifs <;> rfl

/-- Nobody else owns the copy exclusively, so the transaction becomes the owner. -/
lemma exclusiveLockOwner_setExclusiveTransaction
    (h : ∀ T', x.exclusiveLockOwner = some T' → T' = T) :
    (x.setExclusiveTransaction T).exclusiveLockOwner = some T := by
  cases ho : x.exclusiveLockOwner with
  | none => simp [setExclusiveTransaction, ho]
  | some T' => simp [setExclusiveTransaction, ho, h T' ho]

/-- A shared owner is removed. -/
lemma mem_removeSharedOwner (h : x.sharedLockOwners.Nodup) :
    T' ∈ (x.removeSharedOwner T).sharedLockOwners ↔ T' ∈ x.sharedLockOwners ∧ T' ≠ T := by
  rw [removeSharedOwner, h.mem_erase_iff, and_comm]

end Locks

/-- Only locks of `T` are gone. -/
structure Unlocked (T : TranId) (x x' : Variable) : Prop where
  value : x'.value = x.value
  versions : x'.versions = x.versions
  excl : ∀ T', x'.exclusiveLockOwner = some T' → x.exclusiveLockOwner = some T'
  shared : ∀ T' ∈ x'.sharedLockOwners, T' ∈ x.sharedLockOwners
  excl_other : ∀ T', T' ≠ T → x.exclusiveLockOwner = some T' → x'.exclusiveLockOwner = some T'
  shared_other : ∀ T', T' ≠ T → T' ∈ x.sharedLockOwners → T' ∈ x'.sharedLockOwners
  nodup : x.sharedLockOwners.Nodup → x'.sharedLockOwners.Nodup

namespace Unlocked

lemma refl (T : TranId) (x : Variable) : Unlocked T x x :=
  ⟨rfl, rfl, fun _ => id, fun _ => id, fun _ _ => id, fun _ _ => id, id⟩

lemma trans {T : TranId} {x y z : Variable} (h : Unlocked T x y) (h' : Unlocked T y z) :
    Unlocked T x z where
  value := h'.value.trans h.value
  versions := h'.versions.trans h.versions
  excl T' hT := h.excl T' (h'.excl T' hT)
  shared T' hT := h.shared T' (h'.shared T' hT)
  excl_other T' hne hT := h'.excl_other T' hne (h.excl_other T' hne hT)
  shared_other T' hne hT := h'.shared_other T' hne (h.shared_other T' hne hT)
  nodup hn := h'.nodup (h.nodup hn)

end Unlocked

/-- The copy without the locks of `T`. -/
def releaseOwner (x : Variable) (T : TranId) : Variable :=
  (if x.hasExclusiveLock T then x.removeExclusiveOwner else x).removeSharedOwner T

/-- `T` alone loses its lock on the copy. -/
lemma unlocked_releaseOwner (x : Variable) (T : TranId) : Unlocked T x (x.releaseOwner T) := by
  have herase : ∀ T', T' ≠ T → T' ∈ x.sharedLockOwners → T' ∈ x.sharedLockOwners.erase T :=
    fun T' hne hT => (List.mem_erase_of_ne hne).mpr hT
  rw [releaseOwner]
  split_ifs with h
  · have ho : x.exclusiveLockOwner = some T := by simpa [hasExclusiveLock] using h
    refine ⟨rfl, rfl, fun T' hT => ?_, fun T' hT => List.mem_of_mem_erase hT,
      fun T' hne hT => ?_, herase, fun hn => hn.erase T⟩
    · simp [removeSharedOwner, removeExclusiveOwner] at hT
    · exact absurd (Option.some.inj (hT.symm.trans ho)) hne
  · exact ⟨rfl, rfl, fun _ => id, fun T' hT => List.mem_of_mem_erase hT, fun _ _ => id, herase,
      fun hn => hn.erase T⟩

/-- The exclusive lock is released. -/
lemma exclusiveLockOwner_releaseOwner_ne (x : Variable) (T : TranId) :
    (x.releaseOwner T).exclusiveLockOwner ≠ some T := by
  rw [releaseOwner]
  split_ifs with h
  · simp [removeSharedOwner, removeExclusiveOwner]
  · simpa [hasExclusiveLock, removeSharedOwner] using h

/-- The shared lock is released. -/
lemma notMem_releaseOwner {x : Variable} (T : TranId) (hn : x.sharedLockOwners.Nodup) :
    T ∉ (x.releaseOwner T).sharedLockOwners := by
  rw [releaseOwner]
  split_ifs with h
  · exact fun hT => ((mem_removeSharedOwner (x := x.removeExclusiveOwner) hn).mp hT).2 rfl
  · exact fun hT => ((mem_removeSharedOwner hn).mp hT).2 rfl

end Variable

/-! ### Sites -/

structure Site where
  writeAvailable : Bool
  readAvailable : VarId → Bool
  vars : VarId → Variable

namespace Site

/-- A site when it is made: everything is available. -/
def initial : Site :=
  { writeAvailable := true, readAvailable := fun _ => true, vars := Variable.initial }

def assignVar (s : Site) (v : VarId) (value : Value) (timestamp : Timestamp) : Site :=
  { s with vars := Function.update s.vars v ((s.vars v).setValue value timestamp) }

/-- `Site::set_unavailable`: no copy of the site is available any more. -/
def setUnavailable (s : Site) : Site :=
  { s with writeAvailable := false, readAvailable := fun _ => false }

def setReadAvailable (s : Site) (v : VarId) : Site :=
  { s with readAvailable := Function.update s.readAvailable v true }

def setWriteAvailable (s : Site) : Site := { s with writeAvailable := true }

end Site

/-! ### Transactions -/

/-- A map from sites and variables to values. -/
abbrev AccessMap : Type := Dict SiteId (Dict VarId Value)

namespace AccessMap

/-- `m[site_id][var_id] = value`. -/
def set (m : AccessMap) (s : SiteId) (v : VarId) (x : Value) : AccessMap :=
  m.insert s (((m.lookup s).getD ∅).insert v x)

/-- The value recorded for a copy. -/
def get? (m : AccessMap) (s : SiteId) (v : VarId) : Option Value :=
  (m.lookup s).bind fun vars => vars.lookup v

@[simp] lemma get?_empty (s : SiteId) (v : VarId) : get? ∅ s v = none := by simp [get?]

/-- A value is recorded for one variable at one site. -/
lemma get?_set (m : AccessMap) (s s' : SiteId) (v v' : VarId) (x : Value) :
    (m.set s v x).get? s' v' = if s' = s ∧ v' = v then some x else m.get? s' v' := by
  by_cases hs : s' = s
  · subst hs
    by_cases hv : v' = v
    · subst hv; simp [get?, set]
    · cases h : m.lookup s' <;>
        simp [get?, set, hv, h, -AList.insert_empty]
  · simp [get?, set, hs]

/-- The records of the map, entry by entry. -/
lemma get?_eq_some {m : AccessMap} {s : SiteId} {v : VarId} {x : Value} :
    m.get? s v = some x ↔ ∃ vars, ⟨s, vars⟩ ∈ m.entries ∧ ⟨v, x⟩ ∈ vars.entries := by
  rw [get?, Option.bind_eq_some_iff]
  refine exists_congr fun vars => and_congr ?_ ?_
  · exact AList.mem_lookup_iff
  · exact AList.mem_lookup_iff

end AccessMap

structure Transaction where
  transactionId : TranId
  timestamp : Timestamp
  isReadOnly : Bool
  waitingVarId : ℤ := -1
  writeRecords : AccessMap := ∅
  readAccessedSites : AccessMap := ∅
  writeAccessedSites : AccessMap := ∅

namespace Transaction

def isWrittenIntoSite (t : Transaction) (s : SiteId) : Bool := decide (s ∈ t.writeAccessedSites)

/-- `Transaction::update_values`: the write is recorded for a later commit. -/
def updateValues (t : Transaction) (s : SiteId) (v : VarId) (x : Value) : Transaction :=
  { t with
    writeRecords := t.writeRecords.set s v x
    writeAccessedSites := t.writeAccessedSites.set s v x }

/-- The accesses and the records of writes agree, and every site in them has a record. -/
structure Recorded (t : Transaction) : Prop where
  same : t.writeAccessedSites = t.writeRecords
  proper : ∀ s ∈ t.writeRecords, ∃ v x, t.writeRecords.get? s v = some x

/-- Every site that is written to has a record. -/
lemma Recorded.updateValues {t : Transaction} (h : t.Recorded) (s : SiteId) (v : VarId)
    (x : Value) : (t.updateValues s v x).Recorded where
  same := by simp only [Transaction.updateValues, h.same]
  proper := by
    intro s' hs'
    rcases (AList.mem_insert _).mp hs' with rfl | hs'
    · exact ⟨v, x, by simp [Transaction.updateValues, AccessMap.get?_set]⟩
    · obtain ⟨w, y, hw⟩ := h.proper s' hs'
      by_cases heq : s' = s ∧ w = v
      · exact ⟨v, x, by simp [Transaction.updateValues, AccessMap.get?_set, heq.1]⟩
      · exact ⟨w, y, by simpa [Transaction.updateValues, AccessMap.get?_set, heq] using hw⟩

/-- A transaction that has written nothing. -/
lemma recorded_empty {t : Transaction} (hw : t.writeRecords = ∅)
    (ha : t.writeAccessedSites = ∅) : t.Recorded :=
  ⟨ha.trans hw.symm, fun s hs => absurd hs (by simp [hw])⟩

/-- `Transaction::add_read_history`. -/
def addReadHistory (t : Transaction) (s : SiteId) (v : VarId) (x : Value) : Transaction :=
  { t with readAccessedSites := t.readAccessedSites.set s v x }

def setWaitingVarId (t : Transaction) (varId : ℤ) : Transaction := { t with waitingVarId := varId }

end Transaction

end RepCRec
