import Mathlib.Tactic
import Tasvir.SlotTable

/-! The cuckoo hash table of the applications: a table of buckets of four slots in an area,
with an array of entries and a stack of the free ones behind each other in memory. Keys,
values and the hash function are parameters; keys are compared for equality. -/
namespace Tasvir

abbrev HashResult := BitVec 32

/-- `kEntriesPerBucket` and `kMaxCuckooPath`. -/
abbrev SlotIndex := Fin 4
def maxCuckooPath : ℕ := 3

/-- `kInvalidEntryIdx`. -/
def invalidEntryIdx : ℕ := 2^32-1

structure Entry (K V : Type) where
  first : K
  second : V
deriving DecidableEq

structure Bucket where
  hashValues : SlotIndex → HashResult
  entryIndices : SlotIndex → ℕ

/-- `EntryStack`; the element `stck_[size_]` is not part of its array. -/
structure EntryStack where
  head : ℕ
  size : ℕ
  stck : ℕ → ℕ

/-- The element `stck_[size_]` lies on the first four bytes of the first entry. -/
class EntryWord (K V : Type) where
  word : Entry K V → ℕ
  setWord : Entry K V → ℕ → Entry K V
  word_setWord : ∀ e i, i < 2^32 → word (setWord e i) = i
  setWord_setWord : ∀ e i j, setWord (setWord e i) j = setWord e j

/-- Entries of `uint64_t` keys and values. -/
instance : EntryWord (BitVec 64) (BitVec 64) where
  word e := (e.first.setWidth 32).toNat
  setWord e i := ⟨e.first.extractLsb' 32 32 ++ BitVec.ofNat 32 i, e.second⟩
  word_setWord e i hi := by
    simp only [BitVec.setWidth_append_eq_right, BitVec.toNat_ofNat, Nat.mod_eq_of_lt hi]
  setWord_setWord e i j := by
    simp only [BitVec.extractLsb'_append_eq_left]

/-- What a call of the marker `M` names. -/
inductive Mark
  | bucket (b : ℕ)
  | entry (i : ℕ)
  | head
  | stck (i : ℕ)
  | stack
  | numEntries
  | all
deriving DecidableEq

/-- The map with its arrays, which hold zeros outside of their bounds; `marks` are the calls
of the marker since the last sync. -/
structure CuckooMap (K V : Type) where
  bucketMask : HashResult
  numEntries : ℕ
  allocNumBuckets : ℕ
  allocNumEntries : ℕ
  free : EntryStack
  buckets : ℕ → Bucket
  entries : ℕ → Entry K V
  marks : List Mark

/-- `Hash`: never zero. -/
def hashPrimary {K : Type} (hasher : K → BitVec 64) (key : K) : HashResult :=
  (hasher key ||| 0x80000000#64).setWidth 32

/-- `HashSecondary`. -/
def hashSecondary (primary : HashResult) : HashResult :=
  primary ^^^ ((primary >>> 12+1)*0x5bd1e995#32)

/-- `FindEmptySlot`. -/
def findEmptySlot (bucket : Bucket) : Option SlotIndex :=
  (List.finRange 4).find? (fun i => bucket.hashValues i = 0)

namespace CuckooMap
variable {K V : Type}

def mark (m : CuckooMap K V) (ms : List Mark) : CuckooMap K V := { m with marks := m.marks ++ ms }

/-- `h & bucket_mask_`. -/
def bucketOf (m : CuckooMap K V) (h : HashResult) : ℕ := (h &&& m.bucketMask).toNat

def setHead (m : CuckooMap K V) (h : ℕ) : CuckooMap K V := { m with free := { m.free with head := h } }

def setBucket (m : CuckooMap K V) (b : ℕ) (bucket : Bucket) : CuckooMap K V :=
  { m with buckets := Function.update m.buckets b bucket }

def setHash (m : CuckooMap K V) (b : ℕ) (i : SlotIndex) (h : HashResult) : CuckooMap K V :=
  m.setBucket b { m.buckets b with hashValues := Function.update (m.buckets b).hashValues i h }

def setIndex (m : CuckooMap K V) (b : ℕ) (i : SlotIndex) (idx : ℕ) : CuckooMap K V :=
  m.setBucket b { m.buckets b with entryIndices := Function.update (m.buckets b).entryIndices i idx }

def setEntry (m : CuckooMap K V) (i : ℕ) (e : Entry K V) : CuckooMap K V :=
  { m with entries := Function.update m.entries i e }

section Stack
variable [EntryWord K V]

/-- `stck_[i]`. -/
def stck (m : CuckooMap K V) (i : ℕ) : ℕ :=
  if i = m.free.size then EntryWord.word (m.entries 0) else m.free.stck i

def setStck (m : CuckooMap K V) (i v : ℕ) : CuckooMap K V :=
  if i = m.free.size then m.setEntry 0 (EntryWord.setWord (m.entries 0) v)
  else { m with free := { m.free with stck := Function.update m.free.stck i v } }

/-- `PushNoLog`. -/
def pushNoLog (m : CuckooMap K V) (entry : ℕ) : CuckooMap K V :=
  if m.free.size ≤ m.free.head then m
  else (m.setHead (m.free.head+1)).setStck (m.free.head+1) entry

/-- `Push`, of which `PushFreeEntryIndex` drops the result. -/
def push (m : CuckooMap K V) (entry : ℕ) : CuckooMap K V :=
  if m.free.size ≤ m.free.head then m
  else ((m.setHead (m.free.head+1)).setStck (m.free.head+1) entry).mark
    [.stck (m.free.head+1), .head]

/-- `PopFreeEntryIndex`, with `Top` and `Pop`. -/
def popFreeEntryIndex (m : CuckooMap K V) : ℕ × CuckooMap K V :=
  if m.free.head = 0 then (invalidEntryIdx, m)
  else (m.stck m.free.head, (m.setHead (m.free.head-1)).mark [.head])

/-- `AddToBucket`: the index of the entry, or none for the null pointer. -/
def addToBucket (hasher : K → BitVec 64) (m : CuckooMap K V) (b : ℕ) (key : K) (value : V) :
    Option ℕ × CuckooMap K V :=
  match findEmptySlot (m.buckets b) with
  | none => (none, m)
  | some slot =>
    let r := m.popFreeEntryIndex
    if r.1 = invalidEntryIdx then (none, r.2)
    else
      let m := ((r.2.setHash b slot (hashPrimary hasher key)).setIndex b slot r.1).mark [.bucket b]
      let m := (m.setEntry r.1 ⟨key, value⟩).mark [.entry r.1]
      (some r.1, { m with numEntries := m.numEntries+1 })

variable [Zero K] [Zero V]

/-- `Clear`. -/
def clear (m : CuckooMap K V) : CuckooMap K V :=
  let m := (m.setHead 0).mark [.head]
  let m := { m with
    buckets := fun _ => ⟨fun _ => 0, fun _ => 0⟩
    entries := fun _ => ⟨0, 0⟩
    numEntries := 0
    bucketMask := BitVec.ofNat 32 (m.allocNumBuckets-1) }
  ((List.range m.allocNumEntries).reverse.foldl pushNoLog m).mark [.head, .stack, .all]

/-- `Size`, with `sizeof(CuckooMap)` 48, `sizeof(EntryStack)` 24 and `sizeof(Bucket)` 32. -/
def areaSize (sizeofEntry entries buckets : ℕ) : ℕ :=
  (48+(24+entries*4)+sizeofEntry*entries+32*buckets)%2^64

/-- `Create`, over an area with any contents `m`; the counts are kept as `int`, and are below
`2^31`. -/
def create (m : CuckooMap K V) (sizeofEntry area entries buckets : ℕ) : Option (CuckooMap K V) :=
  if area < areaSize sizeofEntry entries buckets then none
  else if buckets = 0 ∨ entries = 0 ∨ buckets &&& (buckets-1) ≠ 0 ∨ entries < buckets then none
  else some (clear { m with
    free := { m.free with head := 0, size := entries }
    allocNumBuckets := buckets
    allocNumEntries := entries
    numEntries := 0
    bucketMask := BitVec.ofNat 32 (buckets-1) })

end Stack

/-- The writes of `MakeSpace` once slot `j` of the other bucket is empty. -/
def moveEntry (m : CuckooMap K V) (index : ℕ) (i : SlotIndex) (alt : ℕ) (j : SlotIndex) :
    CuckooMap K V :=
  let m := m.setHash alt j ((m.buckets index).hashValues i)
  let m := m.setIndex alt j ((m.buckets index).entryIndices i)
  (m.setHash index i 0).mark [.bucket alt, .bucket index]

/-- The other bucket of the entry in slot `i`, as `MakeSpace` computes it. -/
def altIndex (hasher : K → BitVec 64) (m : CuckooMap K V) (index : ℕ) (i : SlotIndex) : Option ℕ :=
  let pri := hashPrimary hasher (m.entries ((m.buckets index).entryIndices i)).first
  let sec := hashSecondary pri
  if pri = (m.buckets index).hashValues i then some (m.bucketOf sec)
  else if sec = (m.buckets index).hashValues i then some (m.bucketOf pri)
  else none

/-- The loop of `MakeSpace` over the slots, with the recursive call as a parameter. A call
that fails has written nothing, so it needs no state. -/
def makeSpaceFrom (hasher : K → BitVec 64) (rec : CuckooMap K V → ℕ → Option (SlotIndex × CuckooMap K V))
    (m : CuckooMap K V) (index : ℕ) : List SlotIndex → Option (SlotIndex × CuckooMap K V)
  | [] => none
  | i :: is =>
    match m.altIndex hasher index i with
    | none => none
    | some alt =>
      match (match findEmptySlot (m.buckets alt) with
        | some j => some (j, m)
        | none => rec m alt) with
      | some (j, m') => some (i, m'.moveEntry index i alt j)
      | none => makeSpaceFrom hasher rec m index is

/-- `MakeSpace`; the first argument is `kMaxCuckooPath-depth`. -/
def makeSpace (hasher : K → BitVec 64) : ℕ → CuckooMap K V → ℕ → Option (SlotIndex × CuckooMap K V)
  | 0 => fun _ _ => none
  | n+1 => fun m index => makeSpaceFrom hasher (makeSpace hasher n) m index (List.finRange 4)

section Keys
variable [DecidableEq K]

/-- `FindSlot`. -/
def findSlot (m : CuckooMap K V) (bucket : Bucket) (primary : HashResult) (key : K) : Option SlotIndex :=
  (List.finRange 4).find? (fun i => bucket.hashValues i = primary ∧
    (m.entries (bucket.entryIndices i)).first = key)

/-- `GetFromBucket`, with none for `kInvalidEntryIdx`. -/
def getFromBucket (m : CuckooMap K V) (primary : HashResult) (b : ℕ) (key : K) : Option ℕ :=
  (m.findSlot (m.buckets b) primary key).map (m.buckets b).entryIndices

/-- `FindWithHash`. -/
def findWithHash (m : CuckooMap K V) (primary : HashResult) (key : K) : Option ℕ :=
  match m.getFromBucket primary (m.bucketOf primary) key with
  | some idx => some idx
  | none => m.getFromBucket primary (m.bucketOf (hashSecondary primary)) key

/-- `Find`. -/
def find (hasher : K → BitVec 64) (m : CuckooMap K V) (key : K) : Option (Entry K V) :=
  (m.findWithHash (hashPrimary hasher key) key).map m.entries

variable [EntryWord K V]

/-- `AddEntry`: each time around `again` takes one of the fuel. -/
def addEntry (hasher : K → BitVec 64) (primary secondary : HashResult) (key : K) (value : V) :
    ℕ → CuckooMap K V → Option (Option ℕ × CuckooMap K V)
  | 0, _ => none
  | fuel+1, m =>
    match m.addToBucket hasher (m.bucketOf primary) key value with
    | (some idx, m) => some (some idx, m)
    | (none, m) =>
      match m.addToBucket hasher (m.bucketOf secondary) key value with
      | (some idx, m) => some (some idx, m)
      | (none, m) =>
        match m.makeSpace hasher maxCuckooPath (m.bucketOf primary) with
        | some (_, m) => addEntry hasher primary secondary key value fuel m
        | none =>
          match m.makeSpace hasher maxCuckooPath (m.bucketOf secondary) with
          | some (_, m) => addEntry hasher primary secondary key value fuel m
          | none => some (none, m)

/-- `Insert`: the index of the entry, or none for the null pointer. There is no result when
`again` uses up the fuel, or at the `abort`. -/
def insert (hasher : K → BitVec 64) (fuel : ℕ) (m : CuckooMap K V) (key : K) (value : V) :
    Option (Option ℕ × CuckooMap K V) :=
  let primary := hashPrimary hasher key
  match m.findWithHash primary key with
  | some idx =>
    if (m.entries idx).first ≠ key then none
    else some (some idx, (m.setEntry idx { m.entries idx with second := value }).mark [.entry idx])
  | none => m.addEntry hasher primary (hashSecondary primary) key value fuel

variable [Zero K] [Zero V]

/-- `RemoveFromBucket`: it marks the first bucket of the table. -/
def removeFromBucket (m : CuckooMap K V) (primary : HashResult) (b : ℕ) (key : K) :
    Bool × CuckooMap K V :=
  match m.findSlot (m.buckets b) primary key with
  | none => (false, m)
  | some slot =>
    let m := (m.setHash b slot 0).mark [.bucket 0]
    let idx := (m.buckets b).entryIndices slot
    let m := ((m.setEntry idx ⟨0, 0⟩).mark [.entry idx, .numEntries]).push idx
    (true, { m with numEntries := m.numEntries-1 })

/-- `Remove`. -/
def remove (hasher : K → BitVec 64) (m : CuckooMap K V) (key : K) : Bool × CuckooMap K V :=
  let pri := hashPrimary hasher key
  match m.removeFromBucket pri (m.bucketOf pri) key with
  | (true, m) => (true, m)
  | (false, m) => m.removeFromBucket pri (m.bucketOf (hashSecondary pri)) key

end Keys
end CuckooMap
end Tasvir
