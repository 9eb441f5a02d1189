import Mathlib.Tactic
import Tasvir.CuckooSpace

/-! What holds of the table between calls: an entry is on the stack of free entries or in one
slot, and the last element of the stack, which lies on the first entry, is only used while
that entry is free. -/
namespace Tasvir
open SlotTable

namespace CuckooMap
variable {K V : Type} {m m' : CuckooMap K V}

/-- Some slot leads to the entry. -/
def Used (m : CuckooMap K V) (i : ℕ) : Prop := ∃ p h, m.slot p = some (h, i)

theorem used_of_slot {p : ℕ × SlotIndex} {e : HashResult × ℕ} (h : m.slot p = some e) :
    m.Used e.2 := ⟨p, e.1, h⟩

theorem used_congr (h : m'.slot = m.slot) (i : ℕ) : m'.Used i ↔ m.Used i := by
  rw [Used, Used, h]

theorem Rearranged.used (h : Rearranged m m') (i : ℕ) : m'.Used i ↔ m.Used i := by
  constructor
  · rintro ⟨p, x, hp⟩
    obtain ⟨q, hq⟩ := (h.same (x, i)).mp ⟨p, hp⟩
    exact ⟨q, x, hq⟩
  · rintro ⟨p, x, hp⟩
    obtain ⟨q, hq⟩ := (h.same (x, i)).mpr ⟨p, hp⟩
    exact ⟨q, x, hq⟩

theorem used_fill {p : ℕ × SlotIndex} {x : HashResult} {i : ℕ} (hp : m.slot p = none)
    (hslot : m'.slot = Function.update m.slot p (some (x, i))) (j : ℕ) :
    m'.Used j ↔ m.Used j ∨ j = i := by
  constructor
  · rintro ⟨q, y, hq⟩
    rw [hslot] at hq
    by_cases hqp : q = p
    · rw [hqp, Function.update_self] at hq
      exact .inr (Prod.mk.inj (Option.some.inj hq)).2.symm
    · rw [Function.update_of_ne hqp] at hq
      exact .inl ⟨q, y, hq⟩
  · rintro (⟨q, y, hq⟩ | rfl)
    · have hqp : q ≠ p := by
        rintro rfl
        rw [hp] at hq
        cases hq
      exact ⟨q, y, by rw [hslot, Function.update_of_ne hqp, hq]⟩
    · exact ⟨p, x, by rw [hslot, Function.update_self]⟩

/-- `AddToBucket` once a slot and an entry are found. -/
def putEntry (m : CuckooMap K V) (b : ℕ) (s : SlotIndex) (x : HashResult) (i : ℕ) (e : Entry K V) :
    CuckooMap K V :=
  let m₁ := (((m.setHead (m.free.head-1)).mark [.head]).setHash b s x).setIndex b s i
  { ((m₁.mark [.bucket b]).setEntry i e).mark [.entry i] with numEntries := m.numEntries+1 }

section PutEntry
variable (m) (b : ℕ) (s : SlotIndex) (x : HashResult) (i : ℕ) (e : Entry K V)

theorem slot_putEntry (hx : x ≠ 0) :
    (m.putEntry b s x i e).slot = Function.update m.slot (b, s) (some (x, i)) := by
  have hw := slot_setSlot (m := (m.setHead (m.free.head-1)).mark [.head]) b s x i
  rw [if_neg hx] at hw
  exact hw

theorem buckets_putEntry {c : ℕ} (hc : c ≠ b) : (m.putEntry b s x i e).buckets c = m.buckets c := by
  simp [putEntry, mark, setEntry, setIndex, setBucket, setHash, setHead, hc]

theorem indices_putEntry {n : ℕ} (hi : i < n) (h : ∀ c k, (m.buckets c).entryIndices k < n) (c : ℕ)
    (k : SlotIndex) : ((m.putEntry b s x i e).buckets c).entryIndices k < n := by
  by_cases hc : c = b
  · subst hc
    by_cases hk : k = s
    · subst hk
      simpa [putEntry, mark, setEntry, setIndex, setBucket] using hi
    · simpa [putEntry, mark, setEntry, setIndex, setBucket, setHash, setHead, hk] using h c k
  · rw [buckets_putEntry m b s x i e hc]
    exact h c k

theorem entries_putEntry : (m.putEntry b s x i e).entries = Function.update m.entries i e := rfl

theorem free_putEntry : (m.putEntry b s x i e).free = (m.setHead (m.free.head-1)).free := rfl

theorem bucketMask_putEntry : (m.putEntry b s x i e).bucketMask = m.bucketMask := by
  simp only [putEntry, mark, setEntry, setIndex, setBucket, setHash, setHead]

theorem allocs_putEntry : (m.putEntry b s x i e).allocNumBuckets = m.allocNumBuckets ∧
    (m.putEntry b s x i e).allocNumEntries = m.allocNumEntries := by
  simp only [putEntry, mark, setEntry, setIndex, setBucket, setHash, setHead, and_self]

theorem numEntries_putEntry : (m.putEntry b s x i e).numEntries = m.numEntries+1 := rfl

theorem marks_putEntry :
    (m.putEntry b s x i e).marks = m.marks ++ [.head, .bucket b, .entry i] := by
  simp [putEntry, mark, setEntry, setIndex, setBucket, setHash, setHead]

end PutEntry

/-- `RemoveFromBucket` up to the push. -/
def dropEntry [Zero K] [Zero V] (m : CuckooMap K V) (b : ℕ) (s : SlotIndex) (i : ℕ) :
    CuckooMap K V :=
  (((m.setHash b s 0).mark [.bucket 0]).setEntry i ⟨0, 0⟩).mark [.entry i, .numEntries]

section DropEntry
variable [Zero K] [Zero V] (m) (b : ℕ) (s : SlotIndex) (i : ℕ)

theorem slot_dropEntry : (m.dropEntry b s i).slot = Function.update m.slot (b, s) none :=
  slot_setHash_zero b s

theorem entries_dropEntry : (m.dropEntry b s i).entries = Function.update m.entries i ⟨0, 0⟩ := rfl

theorem marks_dropEntry :
    (m.dropEntry b s i).marks = m.marks ++ [.bucket 0, .entry i, .numEntries] := by
  simp [dropEntry, mark, setEntry, setHash, setBucket]

theorem indices_dropEntry (c : ℕ) :
    ((m.dropEntry b s i).buckets c).entryIndices = (m.buckets c).entryIndices :=
  entryIndices_setHash b s 0 c

theorem hashValues_dropEntry (c : ℕ) (k : SlotIndex) :
    ((m.dropEntry b s i).buckets c).hashValues k = (m.buckets c).hashValues k ∨
      ((m.dropEntry b s i).buckets c).hashValues k = 0 := by
  by_cases hc : c = b
  · subst hc
    by_cases hk : k = s
    · subst hk
      right
      simp [dropEntry, mark, setEntry, setHash, setBucket]
    · left
      simp [dropEntry, mark, setEntry, setHash, setBucket, hk]
  · left
    simp [dropEntry, mark, setEntry, setHash, setBucket, hc]

end DropEntry

section FreeList
variable [EntryWord K V]

/-- The stack of free entries, from `stck_[1]` to the top. -/
def freeList (m : CuckooMap K V) : List ℕ := (List.range m.free.head).map (fun i => m.stck (i+1))

@[simp] theorem length_freeList : m.freeList.length = m.free.head := by
  simp [freeList]

theorem stck_congr (hfree : m'.free = m.free) {i : ℕ} (hi : i = m.free.size →
    m'.entries 0 = m.entries 0) : m'.stck i = m.stck i := by
  unfold stck
  rw [hfree]
  split
  next h => rw [hi h]
  next => rfl

/-- The stack does not change with the first entry, unless it is full. -/
theorem freeList_congr (hle : m.free.head ≤ m.free.size) (hfree : m'.free = m.free)
    (hentry : m.free.head = m.free.size → m'.entries 0 = m.entries 0) :
    m'.freeList = m.freeList := by
  unfold freeList
  rw [hfree]
  apply List.map_congr_left
  intro i hi
  rw [List.mem_range] at hi
  apply stck_congr hfree
  intro h
  exact hentry (by omega)

/-- What pushing a list of entries one after the other does. -/
structure Pushed (m m' : CuckooMap K V) (l : List ℕ) : Prop where
  list : m'.freeList = m.freeList ++ l
  head : m'.free.head = m.free.head+l.length
  size : m'.free.size = m.free.size
  buckets : m'.buckets = m.buckets
  mask : m'.bucketMask = m.bucketMask
  numEntries : m'.numEntries = m.numEntries
  allocNumBuckets : m'.allocNumBuckets = m.allocNumBuckets
  allocNumEntries : m'.allocNumEntries = m.allocNumEntries
  marks : m'.marks = m.marks
  entries : ∀ {i}, (m'.free.head = m.free.size → i ≠ 0) → m'.entries i = m.entries i
  first : l ≠ [] → m'.free.head = m.free.size →
    ∃ w ∈ l, m'.entries 0 = EntryWord.setWord (m.entries 0) w

theorem Pushed.nil (m : CuckooMap K V) : Pushed m m [] := by
  refine ⟨?_, rfl, rfl, rfl, rfl, rfl, rfl, rfl, rfl, fun _ => rfl, fun h => absurd rfl h⟩
  rw [List.append_nil]

/-- One more push: below the top only the new element is written, and the first entry only
when the stack becomes full. -/
theorem Pushed.concat {l : List ℕ} (h : Pushed m m' l) (hlt : m'.free.head < m.free.size) {i : ℕ}
    (hi : i < 2^32) : Pushed m (m'.pushNoLog i) (l ++ [i]) := by
  have hsize := h.size
  have hpush : m'.pushNoLog i = (m'.setHead (m'.free.head+1)).setStck (m'.free.head+1) i := by
    rw [pushNoLog, if_neg (by omega)]
  have hhead : (m'.pushNoLog i).free.head = m'.free.head+1 := by
    rw [hpush, setStck]
    split <;> rfl
  have htop : (m'.pushNoLog i).stck (m'.free.head+1) = i := by
    rw [hpush]
    by_cases hs : m'.free.head+1 = m'.free.size
    · simp [setStck, setHead, stck, setEntry, hs, EntryWord.word_setWord _ _ hi]
    · simp [setStck, setHead, stck, hs]
  have hbelow (k : ℕ) (hk : k < m'.free.head) : (m'.pushNoLog i).stck (k+1) = m'.stck (k+1) := by
    have hks : k+1 ≠ m'.free.size := by omega
    have hkh : k ≠ m'.free.head := by omega
    rw [hpush]
    by_cases hs : m'.free.head+1 = m'.free.size
    · simp [setStck, setHead, stck, setEntry, hs, hks]
    · simp [setStck, setHead, stck, hs, hks, hkh]
  have hlist : (m'.pushNoLog i).freeList = m'.freeList ++ [i] := by
    unfold freeList
    rw [hhead, List.range_succ, List.map_append, List.map_singleton, htop]
    congr 1
    apply List.map_congr_left
    intro k hk
    exact hbelow k (List.mem_range.mp hk)
  have hentries (hk : m'.free.head+1 ≠ m'.free.size) : (m'.pushNoLog i).entries = m'.entries := by
    rw [hpush, setStck, if_neg (by simpa [setHead] using hk)]
    rfl
  have hfull (hk : m'.free.head+1 = m'.free.size) :
      (m'.pushNoLog i).entries = Function.update m'.entries 0 (EntryWord.setWord (m'.entries 0) i) := by
    rw [hpush, setStck, if_pos (by simpa [setHead] using hk)]
    rfl
  have hold : ∀ {j}, m'.entries j = m.entries j := h.entries (fun he => by omega)
  obtain ⟨h1, h2, h3, h4, h5, h6, h7⟩ : (m'.pushNoLog i).free.size = m'.free.size ∧
      (m'.pushNoLog i).buckets = m'.buckets ∧ (m'.pushNoLog i).bucketMask = m'.bucketMask ∧
      (m'.pushNoLog i).numEntries = m'.numEntries ∧
      (m'.pushNoLog i).allocNumBuckets = m'.allocNumBuckets ∧
      (m'.pushNoLog i).allocNumEntries = m'.allocNumEntries ∧
      (m'.pushNoLog i).marks = m'.marks := by
    rw [hpush, setStck]
    split <;> exact ⟨rfl, rfl, rfl, rfl, rfl, rfl, rfl⟩
  refine ⟨by rw [hlist, h.list, List.append_assoc], ?_, h1.trans h.size, h2.trans h.buckets,
    h3.trans h.mask, h4.trans h.numEntries, h5.trans h.allocNumBuckets,
    h6.trans h.allocNumEntries, h7.trans h.marks, ?_, ?_⟩
  · rw [hhead, h.head, List.length_append, List.length_singleton]
    omega
  · intro j hj
    by_cases hs : m'.free.head+1 = m'.free.size
    · rw [hfull hs, Function.update_of_ne (hj (by omega)), hold]
    · rw [hentries hs, hold]
  · intro _ hs
    refine ⟨i, by simp, ?_⟩
    rw [hfull (by omega), Function.update_self, hold]

theorem pushed_foldl {l : List ℕ} (hl : ∀ i ∈ l, i < 2^32)
    (hle : m.free.head+l.length ≤ m.free.size) : Pushed m (l.foldl pushNoLog m) l := by
  induction l using List.reverseRecOn with
  | nil => exact Pushed.nil m
  | append_singleton l i ih =>
    rw [List.length_append, List.length_singleton] at hle
    have h := ih (fun j hj => hl j (List.mem_append_left _ hj)) (by omega)
    rw [List.foldl_append, List.foldl_cons, List.foldl_nil]
    apply h.concat
    · rw [h.head]
      omega
    · exact hl i (by simp)

/-- `Push` is `PushNoLog` with the two calls of the marker. -/
theorem push_eq (hlt : m.free.head < m.free.size) (i : ℕ) :
    m.push i = (m.pushNoLog i).mark [.stck (m.free.head+1), .head] := by
  rw [push, pushNoLog, if_neg (by omega), if_neg (by omega)]

theorem freeList_pop (hpos : 0 < m.free.head) :
    m.freeList = (m.setHead (m.free.head-1)).freeList ++ [m.stck m.free.head] := by
  have hrange : List.range m.free.head = List.range (m.free.head-1) ++ [m.free.head-1] := by
    rw [← List.range_succ]
    congr 1
    omega
  have hhead : (m.setHead (m.free.head-1)).free.head = m.free.head-1 := rfl
  unfold freeList
  rw [hhead, hrange, List.map_append, List.map_singleton, Nat.sub_add_cancel hpos]
  rfl

end FreeList

/-- What a free entry holds: zeros, but for the element of the stack that lies on the first. -/
def Blank [EntryWord K V] [Zero K] [Zero V] (n : ℕ) (e : Entry K V) : Prop :=
  e = ⟨0, 0⟩ ∨ ∃ w, w < n ∧ e = EntryWord.setWord ⟨0, 0⟩ w

/-- The invariant of the table. -/
structure Inv [EntryWord K V] [Zero K] [Zero V] (hasher : K → BitVec 64) (m : CuckooMap K V) :
    Prop where
  masked : m.Masked
  size : m.free.size = m.allocNumEntries
  pos : 0 < m.allocNumEntries
  bound : m.allocNumEntries < 2^31
  placed : Placed (m.Good hasher) m.slot
  indices : ∀ b i, (m.buckets b).entryIndices i < m.allocNumEntries
  keys : ∀ {i j}, m.Used i → m.Used j → (m.entries i).first = (m.entries j).first → i = j
  secondary : ∀ {i}, m.Used i → hashSecondary (hashPrimary hasher (m.entries i).first) ≠ 0
  nodup : m.freeList.Nodup
  mem_freeList : ∀ {i}, i ∈ m.freeList ↔ i < m.allocNumEntries ∧ ¬m.Used i
  count : m.numEntries+m.free.head = m.allocNumEntries
  blank : ∀ {i}, i < m.allocNumEntries → ¬m.Used i → Blank m.allocNumEntries (m.entries i)

namespace Inv
variable [EntryWord K V] [Zero K] [Zero V] {hasher : K → BitVec 64}

theorem used_lt (h : Inv hasher m) {i : ℕ} (hi : m.Used i) : i < m.allocNumEntries := by
  obtain ⟨p, x, hp⟩ := hi
  exact (h.placed.ok hp).index

theorem head_le (h : Inv hasher m) : m.free.head ≤ m.free.size := by
  have := h.count
  rw [h.size]
  omega

/-- While an entry is used the stack is not full. -/
theorem head_lt (h : Inv hasher m) {i : ℕ} (hi : m.Used i) : m.free.head < m.allocNumEntries := by
  have hsub : m.freeList.toFinset ⊆ (Finset.range m.allocNumEntries).erase i := by
    intro j hj
    rw [List.mem_toFinset, h.mem_freeList] at hj
    refine Finset.mem_erase.mpr ⟨?_, Finset.mem_range.mpr hj.1⟩
    rintro rfl
    exact hj.2 hi
  have hcard := Finset.card_le_card hsub
  rw [List.toFinset_card_of_nodup h.nodup, length_freeList,
    Finset.card_erase_of_mem (Finset.mem_range.mpr (h.used_lt hi)), Finset.card_range] at hcard
  have := h.pos
  omega

/-- The hash value in a slot is that of its entry, so the entry is in one slot. -/
theorem slot_hash (h : Inv hasher m) {p : ℕ × SlotIndex} {x : HashResult} {i : ℕ}
    (hp : m.slot p = some (x, i)) : x = hashPrimary hasher (m.entries i).first :=
  (h.placed.ok hp).hash

theorem slot_unique (h : Inv hasher m) {p q : ℕ × SlotIndex} {x y : HashResult} {i : ℕ}
    (hp : m.slot p = some (x, i)) (hq : m.slot q = some (y, i)) : p = q := by
  have hxy : x = y := by rw [h.slot_hash hp, h.slot_hash hq]
  rw [← hxy] at hq
  exact h.placed.inj hp hq

/-- With all entries used, an empty slot ends the loop of `MakeSpace`. -/
theorem stops (h : Inv hasher m) (hhead : m.free.head = 0) (b : ℕ) : m.Stops hasher b := by
  intro i hi
  have hused : m.Used ((m.buckets b).entryIndices i) := by
    by_contra hn
    have hmem := h.mem_freeList.mpr ⟨h.indices b i, hn⟩
    have hnil : m.freeList = [] := List.eq_nil_of_length_eq_zero (by rw [length_freeList, hhead])
    rw [hnil] at hmem
    exact absurd hmem List.not_mem_nil
  have hzero := slot_none.mp hi
  simp only at hzero
  simp only [altIndex, hzero]
  rw [if_neg (hashPrimary_ne_zero hasher _), if_neg (h.secondary hused)]

theorem rearranged (h : Inv hasher m) (hre : Rearranged m m')
    (hp : Placed (m'.Good hasher) m'.slot) : Inv hasher m' := by
  have hlist : m'.freeList = m.freeList :=
    freeList_congr h.head_le hre.free (fun _ => by rw [hre.entries])
  refine ⟨hre.masked h.masked, ?_, ?_, ?_, hp, ?_, ?_, ?_, ?_, ?_, ?_, ?_⟩
  · rw [hre.free, hre.allocNumEntries, h.size]
  · rw [hre.allocNumEntries]
    exact h.pos
  · rw [hre.allocNumEntries]
    exact h.bound
  · rw [hre.allocNumEntries]
    exact hre.indices h.indices
  · intro i j hi hj hij
    rw [hre.entries] at hij
    exact h.keys ((hre.used i).mp hi) ((hre.used j).mp hj) hij
  · intro i hi
    rw [hre.entries]
    exact h.secondary ((hre.used i).mp hi)
  · rw [hlist]
    exact h.nodup
  · intro i
    rw [hlist, hre.allocNumEntries, hre.used]
    exact h.mem_freeList
  · rw [hre.numEntries, hre.free, hre.allocNumEntries, h.count]
  · intro i
    rw [hre.allocNumEntries, hre.used, hre.entries]
    exact h.blank

end Inv

section Update
variable [EntryWord K V] [Zero K] [Zero V] {hasher : K → BitVec 64}

/-- A new entry has been put into a slot, and its bucket and entry are marked. -/
structure Added (hasher : K → BitVec 64) (m m' : CuckooMap K V) (i : ℕ) (key : K) (value : V) :
    Prop where
  inv : Inv hasher m'
  fresh : ¬m.Used i
  used : ∀ j, m'.Used j ↔ m.Used j ∨ j = i
  entries : m'.entries = Function.update m.entries i ⟨key, value⟩
  mask : m'.bucketMask = m.bucketMask
  allocNumEntries : m'.allocNumEntries = m.allocNumEntries
  marks : m.marks ⊆ m'.marks
  marked : ∀ {b}, m'.buckets b ≠ m.buckets b → .bucket b ∈ m'.marks
  markedEntry : .entry i ∈ m'.marks

/-- The entry on top of the stack goes into an empty slot of one of the key's buckets. -/
theorem Inv.fill (h : Inv hasher m) {p : ℕ × SlotIndex} {key : K} {value : V} {i : ℕ}
    (hp : m.slot p = none)
    (hb : p.1 = m.bucketOf (hashPrimary hasher key) ∨
      p.1 = m.bucketOf (hashSecondary (hashPrimary hasher key)))
    (hkey : ∀ j, m.Used j → (m.entries j).first ≠ key)
    (hsec : hashSecondary (hashPrimary hasher key) ≠ 0)
    (hlist : m.freeList = m'.freeList ++ [i])
    (hslot : m'.slot = Function.update m.slot p (some (hashPrimary hasher key, i)))
    (hentries : m'.entries = Function.update m.entries i ⟨key, value⟩)
    (hindices : ∀ b k, (m'.buckets b).entryIndices k < m.allocNumEntries)
    (hhead : m'.free.head+1 = m.free.head) (hsize : m'.free.size = m.free.size)
    (hmask : m'.bucketMask = m.bucketMask) (hbuckets : m'.allocNumBuckets = m.allocNumBuckets)
    (halloc : m'.allocNumEntries = m.allocNumEntries) (hnum : m'.numEntries = m.numEntries+1) :
    Inv hasher m' := by
  obtain ⟨hlt, hfresh⟩ := h.mem_freeList.mp (hlist ▸ List.mem_append_right m'.freeList
    (List.mem_singleton.mpr rfl))
  have hused := used_fill hp hslot
  have hne {j : ℕ} (hj : m.Used j) : j ≠ i := by
    rintro rfl
    exact hfresh hj
  have hold {j : ℕ} (hj : m.Used j) : m'.entries j = m.entries j := by
    rw [hentries, Function.update_of_ne (hne hj)]
  have hnew : m'.entries i = ⟨key, value⟩ := by rw [hentries, Function.update_self]
  have hnodup := h.nodup
  rw [hlist] at hnodup
  obtain ⟨hnodup', -, hdisj⟩ := List.nodup_append.mp hnodup
  have hbucketOf (x : HashResult) : m'.bucketOf x = m.bucketOf x := by
    rw [bucketOf, bucketOf, hmask]
  have hcount := h.count
  refine ⟨?_, ?_, ?_, ?_, ?_, ?_, ?_, ?_, hnodup', ?_, ?_, ?_⟩
  · rw [Masked, hmask, hbuckets]
    exact h.masked
  · rw [hsize, halloc, h.size]
  · rw [halloc]
    exact h.pos
  · rw [halloc]
    exact h.bound
  · constructor
    · intro q e hq
      rw [hslot] at hq
      by_cases hqp : q = p
      · rw [hqp, Function.update_self] at hq
        cases hq
        refine ⟨by rw [hnew], by rw [halloc]; exact hlt, ?_⟩
        simpa only [home, hbucketOf, hqp] using hb
      · rw [Function.update_of_ne hqp] at hq
        have hg := h.placed.ok hq
        refine ⟨by rw [hold (used_of_slot hq), ← hg.hash], by rw [halloc]; exact hg.index, ?_⟩
        simpa only [home, hbucketOf] using hg.bucket
    · intro q r e hq hr
      rw [hslot] at hq hr
      by_cases hqp : q = p <;> by_cases hrp : r = p
      · rw [hqp, hrp]
      · rw [hqp, Function.update_self] at hq
        rw [Function.update_of_ne hrp] at hr
        cases hq
        exact absurd rfl (hne (used_of_slot hr))
      · rw [hrp, Function.update_self] at hr
        rw [Function.update_of_ne hqp] at hq
        cases hr
        exact absurd rfl (hne (used_of_slot hq))
      · rw [Function.update_of_ne hqp] at hq
        rw [Function.update_of_ne hrp] at hr
        exact h.placed.inj hq hr
  · rw [halloc]
    exact hindices
  · intro j k hj hk hjk
    rcases (hused j).mp hj with hj | rfl <;> rcases (hused k).mp hk with hk | rfl
    · rw [hold hj, hold hk] at hjk
      exact h.keys hj hk hjk
    · rw [hold hj, hnew] at hjk
      exact absurd hjk (hkey j hj)
    · rw [hold hk, hnew] at hjk
      exact absurd hjk.symm (hkey k hk)
    · rfl
  · intro j hj
    rcases (hused j).mp hj with hj | rfl
    · rw [hold hj]
      exact h.secondary hj
    · rw [hnew]
      exact hsec
  · intro j
    rw [halloc, hused]
    have hmem := h.mem_freeList (i := j)
    rw [hlist, List.mem_append, List.mem_singleton] at hmem
    constructor
    · intro hj
      obtain ⟨hj1, hj2⟩ := hmem.mp (.inl hj)
      refine ⟨hj1, ?_⟩
      rintro (hu | rfl)
      · exact hj2 hu
      · exact hdisj j hj j (List.mem_singleton.mpr rfl) rfl
    · rintro ⟨hj1, hj2⟩
      rcases hmem.mpr ⟨hj1, fun hu => hj2 (.inl hu)⟩ with hj | rfl
      · exact hj
      · exact absurd (.inr rfl) hj2
  · rw [hnum, halloc]
    omega
  · intro j hj hu
    rw [hused] at hu
    rw [halloc] at hj ⊢
    have hji : j ≠ i := fun he => hu (.inr he)
    rw [hentries, Function.update_of_ne hji]
    exact h.blank hj (fun hu' => hu (.inl hu'))

/-- `AddToBucket` fails for a full bucket or without a free entry. -/
theorem Inv.addToBucket (h : Inv hasher m) {b : ℕ} {key : K} (value : V)
    (hb : b = m.bucketOf (hashPrimary hasher key) ∨
      b = m.bucketOf (hashSecondary (hashPrimary hasher key)))
    (hkey : ∀ i, m.Used i → (m.entries i).first ≠ key)
    (hsec : hashSecondary (hashPrimary hasher key) ≠ 0) :
    (m.addToBucket hasher b key value = (none, m) ∧ (m.Full b ∨ m.free.head = 0)) ∨
      ∃ i m', m.addToBucket hasher b key value = (some i, m') ∧ Added hasher m m' i key value := by
  cases hs : findEmptySlot (m.buckets b) with
  | none =>
    left
    exact ⟨by rw [CuckooMap.addToBucket, hs], .inl (full_iff.mpr hs)⟩
  | some s =>
    by_cases hhead : m.free.head = 0
    · left
      refine ⟨?_, .inr hhead⟩
      rw [CuckooMap.addToBucket, hs]
      simp [popFreeEntryIndex, hhead]
    · right
      have hlist := freeList_pop (m := m) (by omega)
      obtain ⟨hlt, hfresh⟩ := h.mem_freeList.mp (hlist ▸ List.mem_append_right _
        (List.mem_singleton.mpr rfl))
      have hbound := h.bound
      have hvalid : m.stck m.free.head ≠ invalidEntryIdx := by
        unfold invalidEntryIdx
        omega
      have hempty : m.slot (b, s) = none := slot_none.mpr (findEmptySlot_some hs).1
      have hcall : m.addToBucket hasher b key value = (some (m.stck m.free.head),
          m.putEntry b s (hashPrimary hasher key) (m.stck m.free.head) ⟨key, value⟩) := by
        rw [CuckooMap.addToBucket, hs]
        simp only [popFreeEntryIndex, if_neg hhead, if_neg hvalid]
        rfl
      generalize m.stck m.free.head = i at *
      generalize hm' : m.putEntry b s (hashPrimary hasher key) i ⟨key, value⟩ = m' at *
      have hslot : m'.slot = Function.update m.slot (b, s) (some (hashPrimary hasher key, i)) := by
        rw [← hm', slot_putEntry m b s _ i _ (hashPrimary_ne_zero hasher key)]
      have hmarks : m'.marks = m.marks ++ [.head, .bucket b, .entry i] := by
        rw [← hm', marks_putEntry]
      have hentries : m'.entries = Function.update m.entries i ⟨key, value⟩ := by
        rw [← hm', entries_putEntry]
      have hfree : m'.free = (m.setHead (m.free.head-1)).free := by
        rw [← hm', free_putEntry]
      have hmask : m'.bucketMask = m.bucketMask := by
        rw [← hm', bucketMask_putEntry]
      obtain ⟨hbuckets, halloc⟩ := allocs_putEntry m b s (hashPrimary hasher key) i ⟨key, value⟩
      rw [hm'] at hbuckets halloc
      refine ⟨i, m', hcall, ?_, hfresh, used_fill hempty hslot, hentries, hmask, halloc, ?_, ?_, ?_⟩
      · have hle := h.head_le
        have hpop : (m.setHead (m.free.head-1)).free.head < m.free.size := by
          change m.free.head-1 < m.free.size
          omega
        have hfl : m'.freeList = (m.setHead (m.free.head-1)).freeList :=
          freeList_congr hpop.le hfree (fun he => absurd he hpop.ne)
        have hindices := indices_putEntry m b s (hashPrimary hasher key) i ⟨key, value⟩ hlt h.indices
        rw [hm'] at hindices
        apply h.fill hempty hb hkey hsec (by rw [hfl]; exact hlist) hslot hentries hindices
          _ _ hmask hbuckets halloc _
        · rw [hfree]
          change m.free.head-1+1 = m.free.head
          omega
        · rw [hfree]
          rfl
        · rw [← hm', numEntries_putEntry]
      · rw [hmarks]
        exact List.subset_append_left _ _
      · intro c hc
        have hcb : c = b := by
          by_contra hne
          apply hc
          rw [← hm', buckets_putEntry m b s _ i _ hne]
        rw [hmarks, hcb]
        simp
      · rw [hmarks]
        simp

/-- Writing the value of a key that is there. -/
theorem Inv.setValue (h : Inv hasher m) {i : ℕ} (hi : m.Used i) (value : V) (ms : List Mark) :
    Inv hasher ((m.setEntry i { m.entries i with second := value }).mark ms) := by
  set m' := (m.setEntry i { m.entries i with second := value }).mark ms with hm'
  have hslot : m'.slot = m.slot := rfl
  have hused := used_congr hslot
  have hfirst (j : ℕ) : (m'.entries j).first = (m.entries j).first := by
    by_cases hj : j = i
    · subst hj
      simp [hm', mark, setEntry]
    · simp [hm', mark, setEntry, hj]
  have hlist : m'.freeList = m.freeList := by
    have hfree : m'.free = m.free := rfl
    apply freeList_congr h.head_le hfree
    intro hfull
    rw [h.size] at hfull
    exact absurd (h.head_lt hi) (by omega)
  refine ⟨h.masked, h.size, h.pos, h.bound, ?_, h.indices, ?_, ?_, ?_, ?_, h.count, ?_⟩
  · constructor
    · intro p e hp
      have hg := h.placed.ok hp
      exact ⟨by rw [hfirst, ← hg.hash], hg.index, hg.bucket⟩
    · exact h.placed.inj
  · intro j k hj hk hjk
    rw [hfirst, hfirst] at hjk
    exact h.keys hj hk hjk
  · intro j hj
    rw [hfirst]
    exact h.secondary hj
  · rw [hlist]
    exact h.nodup
  · intro j
    rw [hlist, hused]
    exact h.mem_freeList
  · intro j hj hu
    have hji : j ≠ i := by
      rintro rfl
      exact hu hi
    have he : m'.entries j = m.entries j := by simp [hm', mark, setEntry, hji]
    rw [he]
    exact h.blank hj hu

theorem Inv.used_release (h : Inv hasher m) {p : ℕ × SlotIndex} {x : HashResult} {i : ℕ}
    (hp : m.slot p = some (x, i)) (hslot : m'.slot = Function.update m.slot p none) (j : ℕ) :
    m'.Used j ↔ m.Used j ∧ j ≠ i := by
  constructor
  · rintro ⟨q, y, hq⟩
    rw [hslot] at hq
    by_cases hqp : q = p
    · rw [hqp, Function.update_self] at hq
      cases hq
    · rw [Function.update_of_ne hqp] at hq
      refine ⟨⟨q, y, hq⟩, ?_⟩
      rintro rfl
      exact hqp (h.slot_unique hq hp)
  · rintro ⟨⟨q, y, hq⟩, hji⟩
    have hqp : q ≠ p := by
      rintro rfl
      rw [hp] at hq
      exact hji (Prod.mk.inj (Option.some.inj hq)).2.symm
    exact ⟨q, y, by rw [hslot, Function.update_of_ne hqp, hq]⟩

/-- A slot is emptied and its entry is pushed. -/
theorem Inv.release (h : Inv hasher m) {p : ℕ × SlotIndex} {x : HashResult} {i : ℕ}
    (hp : m.slot p = some (x, i)) (hslot : m'.slot = Function.update m.slot p none)
    (hlist : m'.freeList = m.freeList ++ [i])
    (hentries : ∀ j, m.Used j → j ≠ i → m'.entries j = m.entries j)
    (hblank : ∀ j, j < m.allocNumEntries → ¬(m.Used j ∧ j ≠ i) →
      Blank m.allocNumEntries (m'.entries j))
    (hindices : ∀ b k, (m'.buckets b).entryIndices k < m.allocNumEntries)
    (hhead : m'.free.head = m.free.head+1) (hsize : m'.free.size = m.free.size)
    (hmask : m'.bucketMask = m.bucketMask) (hbuckets : m'.allocNumBuckets = m.allocNumBuckets)
    (halloc : m'.allocNumEntries = m.allocNumEntries) (hnum : m'.numEntries = m.numEntries-1) :
    Inv hasher m' := by
  have hi : m.Used i := ⟨p, x, hp⟩
  have hused := h.used_release hp hslot
  have hold {j : ℕ} (hj : m'.Used j) : m'.entries j = m.entries j :=
    hentries j ((hused j).mp hj).1 ((hused j).mp hj).2
  have hbucketOf (x : HashResult) : m'.bucketOf x = m.bucketOf x := by
    rw [bucketOf, bucketOf, hmask]
  have hsub {q : ℕ × SlotIndex} {e : HashResult × ℕ} (hq : m'.slot q = some e) :
      m.slot q = some e := by
    rw [hslot] at hq
    by_cases hqp : q = p
    · rw [hqp, Function.update_self] at hq
      cases hq
    · rw [Function.update_of_ne hqp] at hq
      exact hq
  have hcount := h.count
  have hlt := h.head_lt hi
  refine ⟨?_, ?_, ?_, ?_, ?_, ?_, ?_, ?_, ?_, ?_, ?_, ?_⟩
  · rw [Masked, hmask, hbuckets]
    exact h.masked
  · rw [hsize, halloc, h.size]
  · rw [halloc]
    exact h.pos
  · rw [halloc]
    exact h.bound
  · constructor
    · intro q e hq
      have hg := h.placed.ok (hsub hq)
      refine ⟨by rw [hold (used_of_slot hq), ← hg.hash], by rw [halloc]; exact hg.index, ?_⟩
      simpa only [home, hbucketOf] using hg.bucket
    · intro q r e hq hr
      exact h.placed.inj (hsub hq) (hsub hr)
  · rw [halloc]
    exact hindices
  · intro j k hj hk hjk
    rw [hold hj, hold hk] at hjk
    exact h.keys ((hused j).mp hj).1 ((hused k).mp hk).1 hjk
  · intro j hj
    rw [hold hj]
    exact h.secondary ((hused j).mp hj).1
  · rw [hlist]
    apply List.nodup_append.mpr
    refine ⟨h.nodup, List.nodup_singleton i, ?_⟩
    intro j hj k hk
    rw [List.mem_singleton] at hk
    subst hk
    rintro rfl
    exact (h.mem_freeList.mp hj).2 hi
  · intro j
    rw [hlist, halloc, hused, List.mem_append, List.mem_singleton, h.mem_freeList]
    constructor
    · rintro (⟨hj, hu⟩ | rfl)
      · exact ⟨hj, fun hu' => hu hu'.1⟩
      · exact ⟨h.used_lt hi, fun hu => hu.2 rfl⟩
    · rintro ⟨hj, hu⟩
      by_cases hji : j = i
      · exact .inr hji
      · exact .inl ⟨hj, fun hu' => hu ⟨hu', hji⟩⟩
  · rw [hnum, hhead, halloc]
    omega
  · intro j hj hu
    rw [halloc] at hj ⊢
    exact hblank j hj (fun hu' => hu ((hused j).mpr hu'))

/-- An entry has been removed: only one hash value of the buckets has changed, and that is
not marked. -/
structure Removed (hasher : K → BitVec 64) (m m' : CuckooMap K V) (i : ℕ) : Prop where
  inv : Inv hasher m'
  was : m.Used i
  used : ∀ j, m'.Used j ↔ m.Used j ∧ j ≠ i
  entries : ∀ {j}, m'.Used j → m'.entries j = m.entries j
  mask : m'.bucketMask = m.bucketMask
  allocNumEntries : m'.allocNumEntries = m.allocNumEntries
  marks : m.marks ⊆ m'.marks
  indices : ∀ b, (m'.buckets b).entryIndices = (m.buckets b).entryIndices
  hashValues : ∀ b k, (m'.buckets b).hashValues k = (m.buckets b).hashValues k ∨
    (m'.buckets b).hashValues k = 0
  markedEntry : ∀ j, .entry j ∈ m'.marks ∨ m'.entries j = m.entries j ∨
    j = 0 ∧ .stck m.allocNumEntries ∈ m'.marks ∧
      ∃ w, m'.entries j = EntryWord.setWord (m.entries j) w

/-- The entry of a slot is dropped and pushed. -/
theorem Inv.removed (h : Inv hasher m) {b : ℕ} {s : SlotIndex} {x : HashResult} {i : ℕ}
    (hp : m.slot (b, s) = some (x, i)) {q : CuckooMap K V}
    (hq : Pushed (m.dropEntry b s i) q [i]) (ms : List Mark)
    (hms : m.free.head+1 = m.free.size → .stck m.allocNumEntries ∈ ms) :
    Removed hasher m { q.mark ms with numEntries := q.numEntries-1 } i := by
  have hused : m.Used i := ⟨_, _, hp⟩
  have hlt := h.head_lt hused
  have hsize := h.size
  generalize hm' : ({ q.mark ms with numEntries := q.numEntries-1 } : CuckooMap K V) = m'
  have hslot : m'.slot = Function.update m.slot (b, s) none := by
    rw [← slot_dropEntry m b s i, ← hm']
    funext p
    exact slot_congr (congrFun hq.buckets p.1)
  have hbuckets : m'.buckets = (m.dropEntry b s i).buckets := by
    rw [← hm']
    exact hq.buckets
  have hmarks : m'.marks = m.marks ++ [.bucket 0, .entry i, .numEntries] ++ ms := by
    rw [← marks_dropEntry m b s i, ← hq.marks, ← hm']
    rfl
  have hfl : m'.freeList = m.freeList ++ [i] := by
    have hdrop : (m.dropEntry b s i).freeList = m.freeList :=
      freeList_congr h.head_le rfl (fun he => by omega)
    rw [← hdrop, ← hq.list, ← hm']
    rfl
  have hhead : m'.free.head = m.free.head+1 := by
    rw [← hm']
    exact hq.head
  have hother {j : ℕ} (hj : m.free.head+1 = m.free.size → j ≠ 0) :
      m'.entries j = Function.update m.entries i ⟨0, 0⟩ j := by
    rw [← entries_dropEntry m b s i, ← hm']
    apply hq.entries
    intro he
    rw [hq.head] at he
    exact hj he
  have hstill {j : ℕ} (hj : m.Used j) (hji : j ≠ i) : m'.entries j = m.entries j := by
    rw [hother, Function.update_of_ne hji]
    -- two entries are used, so the stack does not become full
    intro hfull
    exfalso
    have hsub : m.freeList.toFinset ⊆ ((Finset.range m.allocNumEntries).erase i).erase j := by
      intro k hk
      rw [List.mem_toFinset, h.mem_freeList] at hk
      refine Finset.mem_erase.mpr ⟨?_, Finset.mem_erase.mpr ⟨?_, Finset.mem_range.mpr hk.1⟩⟩
      · rintro rfl
        exact hk.2 hj
      · rintro rfl
        exact hk.2 hused
    have hcard := Finset.card_le_card hsub
    rw [List.toFinset_card_of_nodup h.nodup, length_freeList, Finset.card_erase_of_mem
      (Finset.mem_erase.mpr ⟨hji, Finset.mem_range.mpr (h.used_lt hj)⟩), Finset.card_erase_of_mem
      (Finset.mem_range.mpr (h.used_lt hused)), Finset.card_range] at hcard
    have hjlt := h.used_lt hj
    have hilt := h.used_lt hused
    omega
  have hzero {j : ℕ} (hj : j < m.allocNumEntries) (hu : ¬(m.Used j ∧ j ≠ i)) :
      Blank m.allocNumEntries (Function.update m.entries i ⟨0, 0⟩ j) := by
    by_cases hji : j = i
    · rw [hji, Function.update_self]
      exact .inl rfl
    · rw [Function.update_of_ne hji]
      exact h.blank hj (fun hu' => hu ⟨hu', hji⟩)
  have hword (hfull : m.free.head+1 = m.free.size) :
      m'.entries 0 = EntryWord.setWord (Function.update m.entries i ⟨0, 0⟩ 0) i := by
    obtain ⟨w, hw, hfirst⟩ := hq.first (by simp) (by rw [hq.head]; exact hfull)
    rw [List.mem_singleton] at hw
    rw [hw] at hfirst
    rw [← entries_dropEntry m b s i, ← hfirst, ← hm']
    rfl
  have hblank (j : ℕ) (hj : j < m.allocNumEntries) (hu : ¬(m.Used j ∧ j ≠ i)) :
      Blank m.allocNumEntries (m'.entries j) := by
    by_cases hfirst : m.free.head+1 = m.free.size ∧ j = 0
    · obtain ⟨hfull, rfl⟩ := hfirst
      rw [hword hfull]
      rcases hzero hj hu with hz | ⟨v, -, hz⟩
      · rw [hz]
        exact .inr ⟨i, h.used_lt hused, rfl⟩
      · rw [hz, EntryWord.setWord_setWord]
        exact .inr ⟨i, h.used_lt hused, rfl⟩
    · rw [hother (fun hfull h0 => hfirst ⟨hfull, h0⟩)]
      exact hzero hj hu
  have hidx (c : ℕ) : (m'.buckets c).entryIndices = (m.buckets c).entryIndices := by
    rw [hbuckets, indices_dropEntry]
  have hmask : m'.bucketMask = m.bucketMask := by
    rw [← hm']
    exact hq.mask
  have halloc : m'.allocNumEntries = m.allocNumEntries := by
    rw [← hm']
    exact hq.allocNumEntries
  have hinv : Inv hasher m' := by
    apply h.release hp hslot hfl (fun j => hstill) hblank _ hhead _ hmask _ halloc
    · rw [← hm']
      exact congrArg (· - 1) hq.numEntries
    · intro c k
      rw [hidx]
      exact h.indices c k
    · rw [← hm']
      exact hq.size
    · rw [← hm']
      exact hq.allocNumBuckets
  have hus := h.used_release hp hslot
  refine ⟨hinv, hused, hus, ?_, hmask, halloc, ?_, hidx, ?_, ?_⟩
  · intro j hj
    exact hstill ((hus j).mp hj).1 ((hus j).mp hj).2
  · rw [hmarks, List.append_assoc]
    exact List.subset_append_left _ _
  · intro c k
    rw [hbuckets]
    exact hashValues_dropEntry m b s i c k
  · intro j
    by_cases hji : j = i
    · left
      rw [hmarks, hji]
      simp
    · right
      by_cases hfirst : m.free.head+1 = m.free.size ∧ j = 0
      · obtain ⟨hfull, rfl⟩ := hfirst
        refine .inr ⟨rfl, ?_, i, ?_⟩
        · rw [hmarks]
          exact List.mem_append_right _ (hms hfull)
        · rw [hword hfull, Function.update_of_ne hji]
      · left
        rw [hother (fun hfull h0 => hfirst ⟨hfull, h0⟩), Function.update_of_ne hji]

/-- What the marks of a call cover: a bucket that is not marked has changed in hash values that
are zero now, and an entry that is not, in the word of the stack. -/
structure Logged (m m' : CuckooMap K V) : Prop where
  mask : m'.bucketMask = m.bucketMask
  allocNumEntries : m'.allocNumEntries = m.allocNumEntries
  marks : m.marks ⊆ m'.marks
  bucket : ∀ b, .bucket b ∈ m'.marks ∨
    (m'.buckets b).entryIndices = (m.buckets b).entryIndices ∧
      ∀ k, (m'.buckets b).hashValues k = (m.buckets b).hashValues k ∨
        (m'.buckets b).hashValues k = 0
  entry : ∀ j, .entry j ∈ m'.marks ∨ m'.entries j = m.entries j ∨
    j = 0 ∧ .stck m.allocNumEntries ∈ m'.marks ∧
      ∃ w, m'.entries j = EntryWord.setWord (m.entries j) w

omit [Zero K] [Zero V] in
theorem Logged.trans {m'' : CuckooMap K V} (h : Logged m m') (h' : Logged m' m'') :
    Logged m m'' := by
  refine ⟨h'.mask.trans h.mask, h'.allocNumEntries.trans h.allocNumEntries,
    List.Subset.trans h.marks h'.marks, ?_, ?_⟩
  · intro b
    rcases h'.bucket b with hb | ⟨hi', hh'⟩
    · exact .inl hb
    · rcases h.bucket b with hb | ⟨hi, hh⟩
      · exact .inl (h'.marks hb)
      · refine .inr ⟨hi'.trans hi, ?_⟩
        intro k
        rcases hh' k with hk' | hk'
        · rcases hh k with hk | hk
          · exact .inl (hk'.trans hk)
          · exact .inr (hk'.trans hk)
        · exact .inr hk'
  · intro j
    rw [h.allocNumEntries.symm]
    rcases h'.entry j with he' | he' | ⟨hj, hs', w', hw'⟩
    · exact .inl he'
    · rcases h.entry j with he | he | ⟨hj, hs, w, hw⟩
      · exact .inl (h'.marks he)
      · exact .inr (.inl (he'.trans he))
      · rw [h.allocNumEntries]
        exact .inr (.inr ⟨hj, h'.marks hs, w, he'.trans hw⟩)
    · rcases h.entry j with he | he | ⟨-, hs, w, hw⟩
      · exact .inl (h'.marks he)
      · exact .inr (.inr ⟨hj, hs', w', by rw [hw', he]⟩)
      · exact .inr (.inr ⟨hj, hs', w', by rw [hw', hw, EntryWord.setWord_setWord]⟩)

omit [Zero K] [Zero V] in
theorem Rearranged.logged (h : Rearranged m m') : Logged m m' := by
  refine ⟨h.mask, h.allocNumEntries, h.marks, ?_, fun j => .inr (.inl (congrFun h.entries j))⟩
  intro b
  by_cases hb : m'.buckets b = m.buckets b
  · rw [hb]
    exact .inr ⟨rfl, fun _ => .inl rfl⟩
  · exact .inl (h.marked hb)

theorem Added.logged {i : ℕ} {key : K} {value : V} (h : Added hasher m m' i key value) :
    Logged m m' := by
  refine ⟨h.mask, h.allocNumEntries, h.marks, ?_, ?_⟩
  · intro b
    by_cases hb : m'.buckets b = m.buckets b
    · rw [hb]
      exact .inr ⟨rfl, fun _ => .inl rfl⟩
    · exact .inl (h.marked hb)
  · intro j
    by_cases hj : j = i
    · rw [hj]
      exact .inl h.markedEntry
    · rw [h.entries, Function.update_of_ne hj]
      exact .inr (.inl rfl)

theorem Removed.logged {i : ℕ} (h : Removed hasher m m' i) : Logged m m' :=
  ⟨h.mask, h.allocNumEntries, h.marks, fun b => .inr ⟨h.indices b, h.hashValues b⟩, h.markedEntry⟩

omit [Zero K] [Zero V] in
theorem logged_setValue (i : ℕ) (e : Entry K V) : Logged m ((m.setEntry i e).mark [.entry i]) := by
  refine ⟨rfl, rfl, List.subset_append_left _ _, fun b => .inr ⟨rfl, fun _ => .inl rfl⟩, ?_⟩
  intro j
  by_cases hj : j = i
  · left
    simp [mark, hj]
  · right
    left
    simp [mark, setEntry, hj]

end Update

theorem findSlot_some [DecidableEq K] {bucket : Bucket} {primary : HashResult} {key : K}
    {s : SlotIndex} (h : m.findSlot bucket primary key = some s) :
    bucket.hashValues s = primary ∧ (m.entries (bucket.entryIndices s)).first = key := by
  have := List.find?_some h
  simpa using this

/-- `RemoveFromBucket`, for a slot that is found. -/
theorem Inv.removeFromBucket [EntryWord K V] [Zero K] [Zero V] {hasher : K → BitVec 64}
    [DecidableEq K] (h : Inv hasher m) {b : ℕ} {primary : HashResult} {key : K} {s : SlotIndex}
    (hne : primary ≠ 0) (hs : m.findSlot (m.buckets b) primary key = some s) :
    ∃ m', m.removeFromBucket primary b key = (true, m') ∧
      Removed hasher m m' ((m.buckets b).entryIndices s) := by
  obtain ⟨hx, -⟩ := findSlot_some hs
  have hp : m.slot (b, s) = some (primary, (m.buckets b).entryIndices s) :=
    slot_some.mpr ⟨hne, hx, rfl⟩
  have hcall : m.removeFromBucket primary b key = (true,
      { (m.dropEntry b s ((m.buckets b).entryIndices s)).push ((m.buckets b).entryIndices s) with
        numEntries := ((m.dropEntry b s ((m.buckets b).entryIndices s)).push
          ((m.buckets b).entryIndices s)).numEntries-1 }) := by
    rw [CuckooMap.removeFromBucket, hs]
    have hidx : ((m.setHash b s 0).mark [.bucket 0]).buckets b = (m.setHash b s 0).buckets b := rfl
    simp only [hidx, entryIndices_setHash]
    rfl
  generalize (m.buckets b).entryIndices s = i at *
  have hused : m.Used i := ⟨_, _, hp⟩
  have hlt := h.head_lt hused
  have hilt := h.used_lt hused
  have hsize := h.size
  have hbound := h.bound
  have hroom : (m.dropEntry b s i).free.head < (m.dropEntry b s i).free.size := by
    change m.free.head < m.free.size
    omega
  have hpush := (Pushed.nil (m.dropEntry b s i)).concat hroom (i := i) (by omega)
  refine ⟨_, hcall, ?_⟩
  have hpe := push_eq hroom i
  simp only [hpe]
  apply h.removed hp hpush
  intro hfull
  change Mark.stck m.allocNumEntries ∈ [.stck (m.free.head+1), .head]
  rw [hfull, hsize]
  simp

end CuckooMap
end Tasvir
