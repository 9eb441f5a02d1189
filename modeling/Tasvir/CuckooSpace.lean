import Mathlib.Tactic
import Tasvir.CuckooMap

/-! `MakeSpace`: a chain of entries is moved along, each to its secondary bucket, and the
slot that becomes empty last is the one returned. A recursive call can pass through the
bucket it was called for, so what is moved afterwards need not be what was read before. -/
namespace Tasvir
open SlotTable

theorem hashPrimary_ne_zero {K : Type} (hasher : K → BitVec 64) (key : K) :
    hashPrimary hasher key ≠ 0 := by
  intro h
  have hbit := congrArg (fun w : BitVec 32 => w.getLsbD 31) h
  simp [hashPrimary] at hbit

theorem findEmptySlot_some {bucket : Bucket} {j : SlotIndex} (h : findEmptySlot bucket = some j) :
    bucket.hashValues j = 0 ∧ ∀ i, i < j → bucket.hashValues i ≠ 0 := by
  unfold findEmptySlot at h
  rw [List.find?_eq_some_iff_getElem] at h
  obtain ⟨hj, k, hk, hget, hbefore⟩ := h
  refine ⟨by simpa using hj, ?_⟩
  intro i hi
  rw [List.getElem_finRange] at hget
  have hik : i.val < k := by
    have hjk := congrArg Fin.val hget
    have hij : i.val < j.val := hi
    simp only [Fin.val_cast] at hjk
    omega
  have := hbefore i.val hik
  rw [List.getElem_finRange] at this
  simpa using this

theorem findEmptySlot_none {bucket : Bucket} :
    findEmptySlot bucket = none ↔ ∀ i, bucket.hashValues i ≠ 0 := by
  simp [findEmptySlot, List.find?_eq_none]

namespace CuckooMap
variable {K V : Type} (hasher : K → BitVec 64) (m : CuckooMap K V)

/-- The hash value and entry index in a slot that is not empty. -/
def slot (p : ℕ × SlotIndex) : Option (HashResult × ℕ) :=
  if (m.buckets p.1).hashValues p.2 = 0 then none
  else some ((m.buckets p.1).hashValues p.2, (m.buckets p.1).entryIndices p.2)

variable {m}

theorem slot_none {p : ℕ × SlotIndex} :
    m.slot p = none ↔ (m.buckets p.1).hashValues p.2 = 0 := by
  simp [slot]

theorem slot_some {p : ℕ × SlotIndex} {e : HashResult × ℕ} :
    m.slot p = some e ↔ e.1 ≠ 0 ∧ (m.buckets p.1).hashValues p.2 = e.1 ∧
      (m.buckets p.1).entryIndices p.2 = e.2 := by
  unfold slot
  split
  next h =>
    rw [h]
    constructor
    · intro hn
      cases hn
    · rintro ⟨h1, h2, -⟩
      exact absurd h2.symm h1
  next h =>
    rw [Option.some.injEq]
    constructor
    · rintro rfl
      exact ⟨h, rfl, rfl⟩
    · rintro ⟨-, h2, h3⟩
      rw [h2, h3]

theorem slot_congr {m' : CuckooMap K V} {p : ℕ × SlotIndex} (h : m'.buckets p.1 = m.buckets p.1) :
    m'.slot p = m.slot p := by
  rw [slot, slot, h]

/-- Writing a slot of a bucket. -/
theorem slot_setSlot (b : ℕ) (i : SlotIndex) (h : HashResult) (idx : ℕ) :
    ((m.setHash b i h).setIndex b i idx).slot =
      Function.update m.slot (b, i) (if h = 0 then none else some (h, idx)) := by
  funext ⟨c, s⟩
  by_cases hc : c = b
  · subst hc
    by_cases hs : s = i
    · subst hs
      simp [slot, setHash, setIndex, setBucket]
    · have hne : (c, s) ≠ (c, i) := by
        intro he
        exact hs (Prod.mk.inj he).2
      rw [Function.update_of_ne hne]
      simp [slot, setHash, setIndex, setBucket, hs]
  · have hne : (c, s) ≠ (b, i) := by
      intro he
      exact hc (Prod.mk.inj he).1
    rw [Function.update_of_ne hne]
    simp [slot, setHash, setIndex, setBucket, hc]

theorem slot_setHash_zero (b : ℕ) (i : SlotIndex) :
    (m.setHash b i 0).slot = Function.update m.slot (b, i) none := by
  funext ⟨c, s⟩
  by_cases hc : c = b
  · subst hc
    by_cases hs : s = i
    · subst hs
      simp [slot, setHash, setBucket]
    · have hne : (c, s) ≠ (c, i) := by
        intro he
        exact hs (Prod.mk.inj he).2
      rw [Function.update_of_ne hne]
      simp [slot, setHash, setBucket, hs]
  · have hne : (c, s) ≠ (b, i) := by
      intro he
      exact hc (Prod.mk.inj he).1
    rw [Function.update_of_ne hne]
    simp [slot, setHash, setBucket, hc]

@[simp] theorem entryIndices_setHash (b : ℕ) (i : SlotIndex) (h : HashResult) (c : ℕ) :
    ((m.setHash b i h).buckets c).entryIndices = (m.buckets c).entryIndices := by
  by_cases hc : c = b
  · subst hc
    simp [setHash, setBucket]
  · simp [setHash, setBucket, hc]

/-- The slots after the writes of `MakeSpace`, also when the two slots are the same. -/
theorem slot_moveEntry (index : ℕ) (i : SlotIndex) (alt : ℕ) (j : SlotIndex) :
    (m.moveEntry index i alt j).slot = moveSlot m.slot (index, i) (alt, j) := by
  have hslot : m.slot (index, i) = if (m.buckets index).hashValues i = 0 then none
      else some ((m.buckets index).hashValues i, (m.buckets index).entryIndices i) := rfl
  have hm : (m.moveEntry index i alt j).slot =
      (((m.setHash alt j ((m.buckets index).hashValues i)).setIndex alt j
        ((m.buckets index).entryIndices i)).setHash index i 0).slot := by
    simp only [moveEntry, entryIndices_setHash]
    rfl
  rw [hm, slot_setHash_zero, slot_setSlot, moveSlot, hslot]

/-- `HashSecondary(h) & bucket_mask_`, where `MakeSpace` moves an entry to. -/
def home (m : CuckooMap K V) (e : HashResult × ℕ) : ℕ := m.bucketOf (hashSecondary e.1)

/-- The slot has the hash value of its entry's key and is in one of its two buckets. -/
structure Good (m : CuckooMap K V) (e : HashResult × ℕ) (p : ℕ × SlotIndex) : Prop where
  hash : e.1 = hashPrimary hasher (m.entries e.2).first
  index : e.2 < m.allocNumEntries
  bucket : p.1 = m.bucketOf e.1 ∨ p.1 = m.home e

/-- The buckets have been rearranged, and nothing else; those that changed are marked. -/
structure Rearranged (m m' : CuckooMap K V) : Prop where
  mask : m'.bucketMask = m.bucketMask
  entries : m'.entries = m.entries
  free : m'.free = m.free
  numEntries : m'.numEntries = m.numEntries
  allocNumBuckets : m'.allocNumBuckets = m.allocNumBuckets
  allocNumEntries : m'.allocNumEntries = m.allocNumEntries
  same : SameContents m.slot m'.slot
  indices : ∀ {n}, (∀ b i, (m.buckets b).entryIndices i < n) →
    ∀ b i, (m'.buckets b).entryIndices i < n
  marks : m.marks ⊆ m'.marks
  marked : ∀ {b}, m'.buckets b ≠ m.buckets b → .bucket b ∈ m'.marks

theorem Rearranged.refl (m : CuckooMap K V) : Rearranged m m :=
  ⟨rfl, rfl, rfl, rfl, rfl, rfl, .refl _, id, List.Subset.refl _, fun h => absurd rfl h⟩

theorem Rearranged.trans {m m' m'' : CuckooMap K V} (h : Rearranged m m') (h' : Rearranged m' m'') :
    Rearranged m m'' where
  mask := h'.mask.trans h.mask
  entries := h'.entries.trans h.entries
  free := h'.free.trans h.free
  numEntries := h'.numEntries.trans h.numEntries
  allocNumBuckets := h'.allocNumBuckets.trans h.allocNumBuckets
  allocNumEntries := h'.allocNumEntries.trans h.allocNumEntries
  same := h.same.trans h'.same
  indices := fun hn => h'.indices (h.indices hn)
  marks := List.Subset.trans h.marks h'.marks
  marked := by
    intro b hb
    by_cases hb' : m'.buckets b = m.buckets b
    · exact h'.marked (by rw [hb']; exact hb)
    · exact h'.marks (h.marked hb')

theorem Rearranged.bucketOf {m m' : CuckooMap K V} (h : Rearranged m m') (x : HashResult) :
    m'.bucketOf x = m.bucketOf x := by
  rw [CuckooMap.bucketOf, CuckooMap.bucketOf, h.mask]

theorem Rearranged.good {m m' : CuckooMap K V} (h : Rearranged m m') :
    m'.Good hasher = m.Good hasher := by
  funext e p
  have hb := h.bucketOf
  apply propext
  constructor
  · intro hg
    refine ⟨by rw [← h.entries, hg.hash], by rw [← h.allocNumEntries]; exact hg.index, ?_⟩
    simpa only [home, hb] using hg.bucket
  · intro hg
    refine ⟨by rw [h.entries, ← hg.hash], by rw [h.allocNumEntries]; exact hg.index, ?_⟩
    simpa only [home, hb] using hg.bucket

theorem rearranged_moveEntry {index alt : ℕ} {i j : SlotIndex} (hq : m.slot (alt, j) = none) :
    Rearranged m (m.moveEntry index i alt j) := by
  refine ⟨rfl, rfl, rfl, rfl, rfl, rfl, ?_, ?_, ?_, ?_⟩
  · rw [slot_moveEntry]
    exact sameContents_moveSlot hq
  · intro n hn b k
    have hidx : ((m.moveEntry index i alt j).buckets b).entryIndices =
        ((m.setIndex alt j ((m.buckets index).entryIndices i)).buckets b).entryIndices := by
      by_cases hb : b = alt
      · subst hb
        simp [moveEntry, mark, setIndex, setBucket]
      · simp [moveEntry, mark, setIndex, setBucket, hb]
    rw [hidx]
    by_cases hb : b = alt
    · subst hb
      by_cases hk : k = j
      · subst hk
        simpa [setIndex, setBucket] using hn index i
      · simpa [setIndex, setBucket, hk] using hn b k
    · simpa [setIndex, setBucket, hb] using hn b k
  · exact List.subset_append_left _ _
  · intro b hb
    apply List.mem_append_right
    by_contra hnot
    apply hb
    have hbi : b ≠ index ∧ b ≠ alt := by
      constructor <;> rintro rfl <;> exact hnot (by simp)
    simp [moveEntry, mark, setHash, setIndex, setBucket, hbi.1, hbi.2]

/-- What is read at an occupied slot leads to its secondary bucket, also when the entry is
there already. -/
theorem altIndex_of_slot {index : ℕ} {i : SlotIndex} {e : HashResult × ℕ}
    (hp : Placed (m.Good hasher) m.slot) (h : m.slot (index, i) = some e) :
    m.altIndex hasher index i = some (m.home e) := by
  obtain ⟨-, h1, h2⟩ := slot_some.mp h
  simp only at h1 h2
  have hhash := (hp.ok h).hash
  simp [altIndex, h1, h2, ← hhash, home]

/-- A call that succeeds: the slots before `i` were given up, slot `i` leads to another
bucket, and that has an empty slot or was made to have one. -/
theorem makeSpaceFrom_some {rec : CuckooMap K V → ℕ → Option (SlotIndex × CuckooMap K V)}
    {index : ℕ} {is : List SlotIndex} {i : SlotIndex} {m₂ : CuckooMap K V}
    (h : m.makeSpaceFrom hasher rec index is = some (i, m₂)) :
    ∃ before after alt j m₁, is = before ++ i :: after ∧
      (∀ k ∈ before, m.altIndex hasher index k ≠ none) ∧
      m.altIndex hasher index i = some alt ∧
      (findEmptySlot (m.buckets alt) = some j ∧ m₁ = m ∨
        findEmptySlot (m.buckets alt) = none ∧ rec m alt = some (j, m₁)) ∧
      m₂ = m₁.moveEntry index i alt j := by
  induction is with
  | nil => simp [makeSpaceFrom] at h
  | cons k ks ih =>
    rw [makeSpaceFrom] at h
    split at h
    next => cases h
    next alt halt =>
      split at h
      next j m₁ hr =>
        obtain ⟨rfl, rfl⟩ := Prod.mk.inj (Option.some.inj h)
        refine ⟨[], ks, alt, j, m₁, rfl, by simp, halt, ?_, rfl⟩
        split at hr
        next j' hj =>
          obtain ⟨rfl, rfl⟩ := Prod.mk.inj (Option.some.inj hr)
          exact .inl ⟨hj, rfl⟩
        next hj => exact .inr ⟨hj, hr⟩
      next =>
        obtain ⟨before, after, alt', j, m₁, rfl, hbefore, hrest⟩ := ih h
        refine ⟨k :: before, after, alt', j, m₁, rfl, ?_, hrest⟩
        intro x hx
        rcases List.mem_cons.mp hx with rfl | hx
        · rw [halt]
          exact Option.some_ne_none _
        · exact hbefore x hx

/-- No slot of the bucket is empty. -/
def Full (m : CuckooMap K V) (b : ℕ) : Prop := ∀ i, m.slot (b, i) ≠ none

theorem full_iff {b : ℕ} : m.Full b ↔ findEmptySlot (m.buckets b) = none := by
  rw [findEmptySlot_none]
  exact forall_congr' fun i => not_congr slot_none

/-- An empty slot ends the loop of `MakeSpace` over the bucket. -/
def Stops (m : CuckooMap K V) (b : ℕ) : Prop :=
  ∀ i, m.slot (b, i) = none → m.altIndex hasher b i = none

theorem Full.stops {b : ℕ} (h : m.Full b) : m.Stops hasher b := fun i hi => absurd hi (h i)

/-- What can be moved: the entry in slot `i`, when all slots up to it are taken. -/
theorem makeSpaceFrom_moves {rec : CuckooMap K V → ℕ → Option (SlotIndex × CuckooMap K V)}
    {index : ℕ} {i : SlotIndex} {m₂ : CuckooMap K V} (hp : Placed (m.Good hasher) m.slot)
    (hstop : m.Stops hasher index)
    (h : m.makeSpaceFrom hasher rec index (List.finRange 4) = some (i, m₂)) :
    ∃ e j m₁, m.slot (index, i) = some e ∧ (∀ k < i, m.slot (index, k) ≠ none) ∧
      ((m.slot (m.home e, j) = none ∧ (∀ k < j, m.slot (m.home e, k) ≠ none) ∧ m₁ = m) ∨
        (m.Full (m.home e) ∧ rec m (m.home e) = some (j, m₁))) ∧
      m₂ = m₁.moveEntry index i (m.home e) j := by
  obtain ⟨before, after, alt, j, m₁, hsplit, hbefore, halt, hfound, hm₂⟩ :=
    makeSpaceFrom_some hasher h
  obtain ⟨e, he⟩ : ∃ e, m.slot (index, i) = some e := by
    apply Option.ne_none_iff_exists'.mp
    intro hn
    rw [hstop i hn] at halt
    cases halt
  have hhome := altIndex_of_slot hasher hp he
  rw [halt] at hhome
  cases hhome
  refine ⟨e, j, m₁, he, ?_, ?_, hm₂⟩
  · intro k hk hn
    have hsorted : (before ++ i :: after).Pairwise (· < ·) := by
      rw [← hsplit]
      exact List.pairwise_lt_finRange 4
    have hmem : k ∈ before ++ i :: after := by
      rw [← hsplit]
      exact List.mem_finRange k
    rcases List.mem_append.mp hmem with hkb | hka
    · exact hbefore k hkb (hstop k hn)
    · rcases List.mem_cons.mp hka with rfl | hka
      · exact absurd hk (lt_irrefl k)
      · have := (List.pairwise_cons.mp (List.pairwise_append.mp hsorted).2.1).1 k hka
        exact absurd hk (not_lt.mpr this.le)
  · rcases hfound with ⟨hj, rfl⟩ | ⟨hj, hr⟩
    · obtain ⟨hj0, hlt⟩ := findEmptySlot_some hj
      refine .inl ⟨slot_none.mpr hj0, ?_, rfl⟩
      intro k hk
      exact fun hn => hlt k hk (slot_none.mp hn)
    · exact .inr ⟨full_iff.mpr hj, hr⟩

/-- What a call of `MakeSpace` that succeeds has done. -/
structure Space (m : CuckooMap K V) (index : ℕ) (i : SlotIndex) (m' : CuckooMap K V) : Prop where
  re : Rearranged m m'
  placed : Placed (m'.Good hasher) m'.slot
  empty : m'.slot (index, i) = none

/-- Slots that were taken have not changed, except the one returned and those whose entry
could be moved at once. -/
def Keeps (m : CuckooMap K V) (index : ℕ) (i : SlotIndex) (m' : CuckooMap K V) : Prop :=
  ∀ p e, m.slot p = some e →
    m'.slot p = some e ∨ p = (index, i) ∨ ¬m.Full (m.home e)

/-- Entries that are not in their secondary bucket, and how far the others are from the last
slot: what a call of `MakeSpace` makes less. -/
def effort (m : CuckooMap K V) : ℕ :=
  weight (Finset.range m.allocNumBuckets ×ˢ Finset.univ)
    (fun e p => if p.1 = m.home e then 3-p.2.val else 16) m.slot

/-- The mask fits the number of buckets. -/
def Masked (m : CuckooMap K V) : Prop := m.bucketMask.toNat+1 = m.allocNumBuckets

theorem Masked.bucketOf_lt (h : m.Masked) (x : HashResult) : m.bucketOf x < m.allocNumBuckets := by
  have hle : (x &&& m.bucketMask).toNat ≤ m.bucketMask.toNat := by
    rw [BitVec.toNat_and]
    exact Nat.and_le_right
  rw [← h]
  exact Nat.lt_succ_of_le hle

theorem Good.mem_range {e : HashResult × ℕ} {p : ℕ × SlotIndex} (hg : m.Good hasher e p)
    (hm : m.Masked) : p ∈ Finset.range m.allocNumBuckets ×ˢ (Finset.univ : Finset SlotIndex) := by
  refine Finset.mem_product.mpr ⟨Finset.mem_range.mpr ?_, Finset.mem_univ _⟩
  rcases hg.bucket with h | h <;> rw [h] <;> exact hm.bucketOf_lt _

theorem Rearranged.masked {m m' : CuckooMap K V} (h : Rearranged m m') (hm : m.Masked) :
    m'.Masked := by
  rw [Masked, h.mask, h.allocNumBuckets]
  exact hm

theorem Rearranged.home {m m' : CuckooMap K V} (h : Rearranged m m') (e : HashResult × ℕ) :
    m'.home e = m.home e := h.bucketOf _

/-- One entry is moved to an empty slot of its secondary bucket. -/
theorem effort_moveEntry {index : ℕ} {i j : SlotIndex} {e : HashResult × ℕ} (hm : m.Masked)
    (hp : Placed (m.Good hasher) m.slot) (he : m.slot (index, i) = some e)
    (hq : m.slot (m.home e, j) = none) :
    (m.moveEntry index i (m.home e) j).effort + (if index = m.home e then 3-i.val else 16) =
      m.effort + (3-j.val) := by
  have hto : (m.home e, j) ∈ Finset.range m.allocNumBuckets ×ˢ (Finset.univ : Finset SlotIndex) :=
    Finset.mem_product.mpr ⟨Finset.mem_range.mpr (hm.bucketOf_lt _), Finset.mem_univ _⟩
  have hw := weight_moveSlot (w := fun e p => if p.1 = m.home e then 3-p.2.val else 16) he hq
    ((hp.ok he).mem_range hasher hm) hto
  simp only [if_true] at hw
  have hs := slot_moveEntry (m := m) index i (m.home e) j
  rw [← hs] at hw
  exact hw

/-- A step of the chain: the slot is empty already, or still has the entry that was read. -/
theorem space_moveEntry {index : ℕ} {i j : SlotIndex} {e : HashResult × ℕ} (hm : m.Masked)
    (hp : Placed (m.Good hasher) m.slot) (hq : m.slot (m.home e, j) = none)
    (he : m.slot (index, i) = some e ∨ m.slot (index, i) = none) :
    m.Space hasher index i (m.moveEntry index i (m.home e) j) ∧
      (m.moveEntry index i (m.home e) j).effort ≤ m.effort+3 := by
  have hre : Rearranged m (m.moveEntry index i (m.home e) j) := rearranged_moveEntry hq
  have hslot := slot_moveEntry (m := m) index i (m.home e) j
  refine ⟨⟨hre, ?_, ?_⟩, ?_⟩
  · rw [hre.good, hslot]
    apply hp.moveSlot hq
    intro e' he'
    rcases he with he | he
    · rw [he] at he'
      cases he'
      exact ⟨(hp.ok he).hash, (hp.ok he).index, .inr rfl⟩
    · rw [he] at he'
      cases he'
  · rw [hslot, moveSlot_source]
  · rcases he with he | he
    · have := effort_moveEntry hasher hm hp he hq
      omega
    · have hsame : (m.moveEntry index i (m.home e) j).effort = m.effort := by
        unfold effort
        rw [hslot, moveSlot_empty he hq]
        rfl
      omega

/-- What is known of the recursive call, which is only made for a full bucket. -/
def RecSpec (rec : CuckooMap K V → ℕ → Option (SlotIndex × CuckooMap K V)) (c : ℕ)
    (keeps : CuckooMap K V → ℕ → SlotIndex → CuckooMap K V → Prop) : Prop :=
  ∀ (m : CuckooMap K V) index i m', m.Masked → Placed (m.Good hasher) m.slot → m.Full index →
    rec m index = some (i, m') →
    m.Space hasher index i m' ∧ m'.effort+c ≤ m.effort ∧ keeps m index i m'

section Level
variable {rec : CuckooMap K V → ℕ → Option (SlotIndex × CuckooMap K V)} {c : ℕ} {index : ℕ}
  {i : SlotIndex} {m₂ : CuckooMap K V}

/-- One level of `MakeSpace`: after the recursive call the slot has what was read from it, or
it is the slot that was emptied, since the entry's secondary bucket was full. -/
theorem makeSpaceFrom_space (hrec : RecSpec hasher rec c Keeps) (hc : 3 < c) (hc' : c ≤ 16)
    (hm : m.Masked) (hp : Placed (m.Good hasher) m.slot) (hstop : m.Stops hasher index)
    (h : m.makeSpaceFrom hasher rec index (List.finRange 4) = some (i, m₂)) :
    m.Space hasher index i m₂ ∧ m₂.effort < m.effort ∧
      (m.Full index → m₂.effort+(c-3) ≤ m.effort) := by
  obtain ⟨e, j, m₁, he, hbefore, hfound, rfl⟩ := makeSpaceFrom_moves hasher hp hstop h
  rcases hfound with ⟨hj, hlt, rfl⟩ | ⟨hfull, hr⟩
  · -- the secondary bucket has an empty slot: another bucket, or a later slot of this one
    have hspace := (space_moveEntry hasher hm hp hj (.inl he)).1
    have heff := effort_moveEntry hasher hm hp he hj
    refine ⟨hspace, ?_, ?_⟩
    · by_cases hhome : index = m₁.home e
      · rw [if_pos hhome] at heff
        have hij : i.val < j.val := by
          by_contra hge
          rcases Nat.lt_or_eq_of_le (Nat.le_of_not_lt hge) with hji | hji
          · exact hbefore j hji (hhome ▸ hj)
          · rw [← hhome, Fin.ext hji, he] at hj
            cases hj
        have := i.isLt
        omega
      · rw [if_neg hhome] at heff
        omega
    · intro hfull
      have hhome : index ≠ m₁.home e := by
        intro hh
        exact hfull j (hh ▸ hj)
      rw [if_neg hhome] at heff
      omega
  · obtain ⟨hspace, heff, hkeeps⟩ := hrec m (m.home e) j m₁ hm hp hfull hr
    have hslot : m₁.slot (index, i) = some e ∨ m₁.slot (index, i) = none := by
      rcases hkeeps _ _ he with h' | h' | h'
      · exact .inl h'
      · rw [h']
        exact .inr hspace.empty
      · exact absurd hfull h'
    have hq := hspace.empty
    rw [← hspace.re.home e] at hq ⊢
    obtain ⟨hs, he'⟩ := space_moveEntry hasher (hspace.re.masked hm) hspace.placed hq hslot
    refine ⟨⟨hspace.re.trans hs.re, hs.placed, hs.empty⟩, by omega, fun _ => by omega⟩

/-- Where the recursive call changes no slot but the one it returns, a slot that changes is
the one returned or the one that call emptied. -/
theorem makeSpaceFrom_keeps
    (hrec : RecSpec hasher rec c (fun m index i m' => ∀ p e, m.slot p = some e →
      m'.slot p = some e ∨ p = (index, i) ∧ ¬m.Full (m.home e)))
    (hm : m.Masked) (hp : Placed (m.Good hasher) m.slot) (hstop : m.Stops hasher index)
    (h : m.makeSpaceFrom hasher rec index (List.finRange 4) = some (i, m₂)) :
    m.Keeps index i m₂ := by
  obtain ⟨e, j, m₁, he, hbefore, hfound, rfl⟩ := makeSpaceFrom_moves hasher hp hstop h
  intro p e' hp'
  rw [slot_moveEntry]
  by_cases hpi : p = (index, i)
  · exact .inr (.inl hpi)
  · rcases hfound with ⟨hj, -, rfl⟩ | ⟨hfull, hr⟩
    · have hpj : p ≠ (m₁.home e, j) := by
        rintro rfl
        rw [hj] at hp'
        cases hp'
      rw [moveSlot_other _ hpi hpj]
      exact .inl hp'
    · obtain ⟨-, -, hkeeps⟩ := hrec m (m.home e) j m₁ hm hp hfull hr
      by_cases hpj : p = (m.home e, j)
      · rcases hkeeps p e' hp' with h' | h'
        · have hempty := (hrec m (m.home e) j m₁ hm hp hfull hr).1.empty
          rw [hpj, hempty] at h'
          cases h'
        · exact .inr (.inr h'.2)
      · rcases hkeeps p e' hp' with h' | h'
        · rw [moveSlot_other _ hpi hpj]
          exact .inl h'
        · exact absurd h'.1 hpj

end Level

/-- The last level moves one entry, to a bucket with an empty slot. -/
theorem recSpec_makeSpace_one :
    RecSpec hasher (makeSpace hasher 1 : CuckooMap K V → _) 13 (fun m index i m' =>
      ∀ p e, m.slot p = some e → m'.slot p = some e ∨ p = (index, i) ∧ ¬m.Full (m.home e)) := by
  have hzero : RecSpec hasher (makeSpace hasher 0 : CuckooMap K V → _) 16 Keeps := by
    intro m index i m' _ _ _ h
    cases h
  intro m index i m' hm hp hfull h
  obtain ⟨hs, -, heff⟩ := makeSpaceFrom_space hasher hzero (by norm_num) le_rfl hm hp
    (hfull.stops hasher) h
  refine ⟨hs, heff hfull, ?_⟩
  obtain ⟨e, j, m₁, he, -, hfound, rfl⟩ := makeSpaceFrom_moves hasher hp (hfull.stops hasher) h
  rcases hfound with ⟨hj, -, rfl⟩ | ⟨-, hr⟩
  · intro p e' hp'
    rw [slot_moveEntry]
    by_cases hpi : p = (index, i)
    · rw [hpi, he] at hp'
      cases hp'
      exact .inr ⟨hpi, fun hf => hf j hj⟩
    · have hpj : p ≠ (m₁.home e, j) := by
        rintro rfl
        rw [hj] at hp'
        cases hp'
      rw [moveSlot_other _ hpi hpj]
      exact .inl hp'
  · cases hr

theorem recSpec_makeSpace_two :
    RecSpec hasher (makeSpace hasher 2 : CuckooMap K V → _) 10 Keeps := by
  have hone : RecSpec hasher (makeSpace hasher 1 : CuckooMap K V → _) 13 Keeps := by
    intro m index i m' hm hp hfull h
    obtain ⟨hs, he, hk⟩ := recSpec_makeSpace_one hasher m index i m' hm hp hfull h
    refine ⟨hs, he, ?_⟩
    intro p e hpe
    exact (hk p e hpe).imp_right fun h' => .inl h'.1
  intro m index i m' hm hp hfull h
  obtain ⟨hs, -, he⟩ := makeSpaceFrom_space hasher hone (by norm_num) (by norm_num) hm hp
    (hfull.stops hasher) h
  exact ⟨hs, he hfull, makeSpaceFrom_keeps hasher (recSpec_makeSpace_one hasher) hm hp
    (hfull.stops hasher) h⟩

/-- `MakeSpace` as it is called: the entries stay where they can be found, the slot returned
is empty, and the effort that is left is less. -/
theorem makeSpace_spec {index : ℕ} {i : SlotIndex} {m' : CuckooMap K V} (hm : m.Masked)
    (hp : Placed (m.Good hasher) m.slot) (hstop : m.Stops hasher index)
    (h : m.makeSpace hasher maxCuckooPath index = some (i, m')) :
    m.Space hasher index i m' ∧ m'.effort < m.effort := by
  obtain ⟨hs, he, -⟩ := makeSpaceFrom_space hasher (recSpec_makeSpace_two hasher) (by norm_num)
    (by norm_num) hm hp hstop h
  exact ⟨hs, he⟩

end CuckooMap
end Tasvir
