import Mathlib.Tactic
import Tasvir.KvAlloc
import Tasvir.Machine
import Tasvir.OwnerNode

/-! The key-value store: a chained hash table in an area, written by its owner through
`update` and read on a replica through `dictFind`. The hash function is a parameter. -/
namespace Tasvir
open ByteMem Machine

/-- KEY_SIZE, VALUE_SIZE, REGION_SIZE and AREA_SIZE. -/
def keySize : ℕ := 64
def valueSize : ℕ := 256
def regionSize : ℕ := 250*1024*1024
def areaSize : ℕ := 1024*1024*1024

/-- `sizeof(dictEntry)`: `key`, `v` and `next`. -/
def sizeofEntry : ℕ := 24

/-- `sizeof(dictWrapper)`: `entryAllocator`, `keyAllocator`, `valAllocator` and `d`. -/
def sizeofWrapper : ℕ := 32

/-- `sizeof(dict)`: `type`, `privdata`, two tables of `table`, `size`, `sizemask` and `used`,
`rehashidx` and `iterators`. -/
def sizeofDict : ℕ := 96

/-- Bounds for the loops over a string and over a chain: the size of the data region. -/
def kvFuel : ℕ := 2^40

def NodeMem.get (s : NodeMem) (a : ℕ) : ℕ := get64 s.rw a

def NodeMem.set (s : NodeMem) (a v : ℕ) : NodeMem := { s with rw := set64 s.rw a v }

/-- `wrap_log_write`. -/
def wrapLogWrite (s : NodeMem) (data size : ℕ) : NodeMem :=
  { s with log := tasvirLog s.log (addrData+data) size }

/-- The C string at `a`. -/
def cString (m : Mem) (a : ℕ) : List ℕ := cstr m kvFuel a

/-- `alloc_allocator` on the RW copy. -/
def NodeMem.alloc (s : NodeMem) (a : ℕ) : ℕ × NodeMem :=
  ((allocAllocator s.rw a).1, { s with rw := (allocAllocator s.rw a).2 })

/-- `valDestructor`. -/
def valDestructor (s : NodeMem) (w key : ℕ) : NodeMem :=
  let a := s.get (w+16)
  let s := { s with rw := freeAllocator s.rw a key }
  let s := wrapLogWrite s a sizeofAllocator
  wrapLogWrite s key (s.get (a+16))

/-- `entryConstructor`. -/
def entryConstructor (s : NodeMem) (w : ℕ) : ℕ × NodeMem :=
  let a := s.get w
  let r := s.alloc a
  (r.1, wrapLogWrite (wrapLogWrite r.2 a sizeofAllocator) r.1 sizeofEntry)

/-- `allocKey`; `strcpy` writes the terminator too. -/
def allocKey (s : NodeMem) (w : ℕ) (key : List ℕ) : ℕ × NodeMem :=
  let r := s.alloc (s.get (w+8))
  let s := wrapLogWrite r.2 (r.2.get (w+8)) sizeofAllocator
  let s := { s with rw := store s.rw r.1 (key ++ [0]) }
  (r.1, wrapLogWrite s r.1 (cString s.rw r.1).length)

/-- `allocVal`. -/
def allocVal (s : NodeMem) (w : ℕ) (val : List ℕ) : ℕ × NodeMem :=
  let r := s.alloc (s.get (w+16))
  let s := wrapLogWrite r.2 (r.2.get (w+16)) sizeofAllocator
  let s := { s with rw := store s.rw r.1 val }
  (r.1, wrapLogWrite s r.1 val.length)

/-- The loop over a chain, up to an entry whose key passes the test. -/
def findChain (m : Mem) (test : ℕ → Bool) : ℕ → ℕ → Option ℕ
  | 0, _ => none
  | n+1, he => if he = 0 then none
    else if test (get64 m he) then some he
    else findChain m test n (get64 m (he+16))

/-- `h & d->ht[0].sizemask`, with `h` an `unsigned int`. -/
def tableIndex (m : Mem) (d h : ℕ) : ℕ := h%2^32 &&& get64 m (d+32)

/-- `&d->ht[0].table[index]`. -/
def tableSlot (m : Mem) (d index : ℕ) : ℕ := get64 m (d+16)+8*index

/-- `dictFind`, for a key outside of the area. `rehashidx` is -1, since `dictExpand` always
fails. -/
def dictFind (hash : List ℕ → ℕ) (m : Mem) (d : ℕ) (key : List ℕ) : Option ℕ :=
  if (get64 m (d+40)+get64 m (d+72))%2^64 = 0 then none
  else findChain m (fun k => cString m k = key) kvFuel
    (get64 m (tableSlot m d (tableIndex m d (hash key))))

/-- What `_dictKeyIndex` finds: no table that can take the key, an entry with the key, or
the index of a slot. -/
inductive KeyIndex
  | full
  | existing (he : ℕ)
  | free (index : ℕ)
deriving DecidableEq

/-- `_dictKeyIndex`, with `_dictExpandIfNeeded`; `compareCallback` compares the strings. -/
def dictKeyIndex (hash : List ℕ → ℕ) (m : Mem) (d key : ℕ) : KeyIndex :=
  if get64 m (d+24) = 0 ∨ get64 m (d+40) ≥ get64 m (d+24) then .full
  else
    let index := tableIndex m d (hash (cString m key))
    match findChain m (fun k => key = k || cString m key = cString m k) kvFuel
      (get64 m (tableSlot m d index)) with
    | some he => .existing he
    | none => .free index

/-- `dictAddRaw` for a key that is not in the table. -/
def dictInsert (s : NodeMem) (w d key index : ℕ) : ℕ × NodeMem :=
  let r := entryConstructor s w
  let entry := r.1
  let slot := tableSlot r.2.rw d index
  let s := r.2.set (entry+16) (r.2.get slot)
  let s := s.set slot entry
  let s := wrapLogWrite s slot 8
  let s := s.set (d+40) (s.get (d+40)+1)
  (entry, s.set entry key)

/-- `dictReplace` with `dictAddRaw`. -/
def dictReplace (hash : List ℕ → ℕ) (s : NodeMem) (w d key val : ℕ) : NodeMem :=
  match dictKeyIndex hash s.rw d key with
  | .free index =>
    let r := dictInsert s w d key index
    r.2.set (r.1+8) val
  | .existing he =>
    let old := s.get (he+8)
    valDestructor (s.set (he+8) val) w old
  -- `existing` is NULL
  | .full => s

/-- `update`. -/
def kvUpdate (hash : List ℕ → ℕ) (s : NodeMem) (w : ℕ) (key value : List ℕ) : NodeMem :=
  let k := allocKey s w key
  let v := allocVal k.2 w value
  dictReplace hash v.2 w (v.2.get (w+24)) k.1 v.1

/-- `_dictPrevPower`. -/
def dictPrevPower (size : ℕ) : ℕ :=
  let size := size ||| size >>> 1
  let size := size ||| size >>> 2
  let size := size ||| size >>> 4
  let size := size ||| size >>> 8
  let size := size ||| size >>> 16
  let size := size ||| size >>> 32
  size-size >>> 1

/-- `dictCreate` for a space that is large enough; `type` is left out, its callbacks are those
of `AllocDictType`. -/
def dictCreate (s : NodeMem) (privData space size : ℕ) : NodeMem :=
  let realsize := dictPrevPower ((size-sizeofDict)/8)
  let s := s.set (space+8) privData
  -- `ht[0]`: the table follows the dictionary
  let s := s.set (space+16) (space+sizeofDict)
  let s := s.set (space+24) realsize
  let s := s.set (space+32) (realsize-1)
  let s := s.set (space+40) 0
  let s := s.set (space+48) 0
  let s := s.set (space+56) 0
  let s := s.set (space+64) 0
  let s := s.set (space+72) 0
  -- `rehashidx` and `iterators`
  let s := s.set (space+80) (2^64-1)
  s.set (space+88) 0

/-- A call of `init_allocator`, whose result goes to `field`, and the log of the allocator. -/
def initField (s : NodeMem) (field space len objLen : ℕ) : NodeMem :=
  let r := initAllocator s.rw space len objLen
  let s := { s with rw := r.2 }.set field r.1
  wrapLogWrite s (s.get field) sizeofAllocator

/-- `initDictWrapper`. -/
def initDictWrapper (s : NodeMem) (space len entrySpace entrySize keySpace keyLen keySize valSpace
    valLen valSize : ℕ) : NodeMem :=
  let s := wrapLogWrite s space sizeofWrapper
  let s := initField s space entrySpace entrySize sizeofEntry
  let s := initField s (space+8) keySpace keySize keyLen
  let s := initField s (space+16) valSpace valSize valLen
  let s := dictCreate s space (space+sizeofWrapper) (len-sizeofWrapper)
  let s := s.set (space+24) (space+sizeofWrapper)
  wrapLogWrite s (s.get (space+24)) sizeofDict

/-- The area that `main` creates, with its header at `h`. -/
def kvArea (h : ℕ) : AreaDesc := ⟨h, areaSize+32768, false⟩

/-- `tasvir_data`. -/
def kvData (h : ℕ) : ℕ := h+sizeofHeader

/-- The call of `initDictWrapper` in `main`. -/
def kvInit (s : NodeMem) (h : ℕ) : NodeMem :=
  initDictWrapper s (kvData h) regionSize (kvData h+regionSize) regionSize (kvData h+2*regionSize)
    keySize regionSize (kvData h+3*regionSize) valueSize regionSize

/-- A C string with its terminator fits in `n` bytes, and is not empty. -/
def ValidString (n : ℕ) (bs : List ℕ) : Prop :=
  bs ≠ [] ∧ bs.length < n ∧ ∀ b ∈ bs, 0 < b ∧ b < 256

/-- The node that owns the area, and the updates made so far, the latest first. -/
structure KvState where
  node : OwnerNode
  history : List (List ℕ × List ℕ) := []

inductive KvAct
  | update (key value : List ℕ)
  /-- a completed internal sync -/
  | sync (evs : List SyncEvent) (timeUs : ℕ)

namespace KvState

/-- No allocator is exhausted. -/
def pre (h : ℕ) (s : KvState) : KvAct → Prop
  | .update key value => ValidString keySize key ∧ ValidString valueSize value ∧
      s.node.mem.get (s.node.mem.get (kvData h)) ≠ 0 ∧
      s.node.mem.get (s.node.mem.get (kvData h+8)) ≠ 0 ∧
      s.node.mem.get (s.node.mem.get (kvData h+16)) ≠ 0
  | .sync evs _ => Completes (kvArea h) evs

def next (hash : List ℕ → ℕ) (h : ℕ) (s : KvState) : KvAct → KvState
  | .update key value =>
    { node := { s.node with mem := kvUpdate hash s.node.mem (kvData h) key value }
      history := (key, value) :: s.history }
  | .sync evs timeUs => { s with node := s.node.internal (kvArea h) evs timeUs }

/-- A new area, in which nothing is written yet. -/
structure Blank (h : ℕ) (n : OwnerNode) : Prop where
  rw : ∀ x, (kvArea h).Payload x → n.mem.rw x = 0
  ro : ∀ x, (kvArea h).Payload x → n.mem.ro x = 0
  lists : ∀ t, Foreign (kvArea h) (n.mem.lists t).l

/-- The value that was written last for the key. -/
def lastValue (s : KvState) (key : List ℕ) : Option (List ℕ) :=
  (s.history.find? fun x => x.1 = key).map Prod.snd

/-- `dictFind` on the RO copy finds what it finds on the RW copy, with the same value. -/
def ReplicaAgrees (hash : List ℕ → ℕ) (h : ℕ) (s : KvState) : Prop :=
  ∀ key, ValidString keySize key →
    let find (m : Mem) := dictFind hash m (get64 m (kvData h+24)) key
    ((find s.node.mem.ro).isSome ↔ (find s.node.mem.rw).isSome) ∧
    ∀ value, s.lastValue key = some value → ∀ e e', find s.node.mem.ro = some e →
      find s.node.mem.rw = some e' → ∀ i < value.length,
        s.node.mem.ro (get64 s.node.mem.ro (e+8)+i) = s.node.mem.rw (get64 s.node.mem.rw (e'+8)+i)

end KvState

/-- From an `initDictWrapper` on a new area that has been synced once. -/
def kvSystem (hash : List ℕ → ℕ) (h : ℕ) : System KvState KvAct where
  init s := ∃ n evs timeUs, KvState.Blank h n ∧ Completes (kvArea h) evs ∧
    s = { node := { n with mem := kvInit n.mem h }.internal (kvArea h) evs timeUs }
  pre := KvState.pre h
  next := KvState.next hash h

end Tasvir
