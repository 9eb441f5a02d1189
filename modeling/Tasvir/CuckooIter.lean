import Mathlib.Tactic
import Tasvir.CuckooRun

/-! The iterator of the table, and a loop from `begin` to `end`. -/
namespace Tasvir
open Machine

/-- `bucket_idx_` and `slot_idx_`. -/
structure CuckooIter where
  bucket : ℕ
  slot : SlotIndex
deriving DecidableEq

/-- The next slot, in the next bucket after the last. -/
def CuckooIter.advance (it : CuckooIter) : CuckooIter :=
  if it.slot = 3 then ⟨it.bucket+1, 0⟩ else ⟨it.bucket, it.slot+1⟩

namespace CuckooMap
variable {K V : Type}

/-- The loop over empty slots, in the constructor and at the end of `operator++`. -/
def skipEmpty (m : CuckooMap K V) : ℕ → CuckooIter → CuckooIter
  | 0, it => it
  | n+1, it =>
    if it.bucket < m.allocNumBuckets ∧ (m.buckets it.bucket).hashValues it.slot = 0 then
      skipEmpty m n it.advance
    else it

/-- The constructor; `begin` and `end`. The loop ends after the slots of the table. -/
def iterator (m : CuckooMap K V) (bucket : ℕ) (slot : SlotIndex) : CuckooIter :=
  m.skipEmpty (4*m.allocNumBuckets) ⟨bucket, slot⟩

def iterBegin (m : CuckooMap K V) : CuckooIter := m.iterator 0 0
def iterEnd (m : CuckooMap K V) : CuckooIter := m.iterator m.allocNumBuckets 0

/-- `operator++`. -/
def iterNext (m : CuckooMap K V) (it : CuckooIter) : CuckooIter :=
  m.skipEmpty (4*m.allocNumBuckets) it.advance

/-- `operator*`. -/
def iterEntry (m : CuckooMap K V) (it : CuckooIter) : Entry K V :=
  m.entries ((m.buckets it.bucket).entryIndices it.slot)

/-- `for (auto it = begin(); it != end(); ++it)`, with what `*it` is in each round. -/
def iterLoop (m : CuckooMap K V) : ℕ → CuckooIter → Option (List (Entry K V))
  | 0, _ => none
  | n+1, it =>
    if it = m.iterEnd then some []
    else (iterLoop m n (m.iterNext it)).map (m.iterEntry it :: ·)

section Positions
variable {m : CuckooMap K V}

/-- The slots in the order of the iterator. -/
def position (p : ℕ) : CuckooIter := ⟨p/4, ⟨p%4, Nat.mod_lt _ (by norm_num)⟩⟩

theorem advance_position (p : ℕ) : (position p).advance = position (p+1) := by
  unfold position CuckooIter.advance
  by_cases hp : p%4 = 3
  · have hq : (p+1)/4 = p/4+1 := by omega
    have hr : (p+1)%4 = 0 := by omega
    rw [if_pos (Fin.ext hp)]
    simp only [hq, hr]
    rfl
  · have hq : (p+1)/4 = p/4 := by omega
    have hr : (p+1)%4 = p%4+1 := by omega
    rw [if_neg (fun h => hp (congrArg Fin.val h))]
    simp only [hq, hr]
    congr 1
    apply Fin.ext
    rw [Fin.val_add]
    have h1 : ((1 : SlotIndex) : ℕ) = 1 := rfl
    simp only [h1]
    omega

theorem position_eq (it : CuckooIter) : it = position (4*it.bucket+it.slot) := by
  have := it.slot.isLt
  unfold position
  have hq : (4*it.bucket+it.slot.val)/4 = it.bucket := by omega
  have hr : (4*it.bucket+it.slot.val)%4 = it.slot.val := by omega
  simp only [hq, hr]

theorem position_injective : Function.Injective position := by
  intro p q h
  have h1 := congrArg CuckooIter.bucket h
  have h2 := congrArg (fun it => it.slot.val) h
  simp only [position] at h1 h2
  omega

/-- The slots from a position on that are not empty. -/
def slotsFrom (m : CuckooMap K V) (p : ℕ) : List ℕ :=
  (List.range' p (4*m.allocNumBuckets-p)).filter
    (fun p => (m.buckets (position p).bucket).hashValues (position p).slot ≠ 0)

theorem slotsFrom_step {p : ℕ} (hp : p < 4*m.allocNumBuckets) :
    m.slotsFrom p = if (m.buckets (position p).bucket).hashValues (position p).slot = 0
      then m.slotsFrom (p+1) else p :: m.slotsFrom (p+1) := by
  have hlen : 4*m.allocNumBuckets-p = 4*m.allocNumBuckets-(p+1)+1 := by omega
  unfold slotsFrom
  rw [hlen, List.range'_succ, List.filter_cons]
  split <;> simp_all

/-- Empty slots are skipped up to the next one that is not, or the end. -/
theorem skipEmpty_position {n p : ℕ} (hn : 4*m.allocNumBuckets-p ≤ n) (hp : p ≤ 4*m.allocNumBuckets) :
    ∃ q, p ≤ q ∧ q ≤ 4*m.allocNumBuckets ∧ m.skipEmpty n (position p) = position q ∧
      m.slotsFrom p = m.slotsFrom q ∧ (q < 4*m.allocNumBuckets →
        (m.buckets (position q).bucket).hashValues (position q).slot ≠ 0) := by
  induction n generalizing p with
  | zero =>
    have hpe : p = 4*m.allocNumBuckets := by omega
    exact ⟨p, le_rfl, hp, rfl, rfl, fun h => by omega⟩
  | succ n ih =>
    have hbucket : (position p).bucket = p/4 := rfl
    rw [skipEmpty]
    split
    next h =>
      have hlt : p < 4*m.allocNumBuckets := by
        rw [hbucket] at h
        omega
      obtain ⟨q, hq1, hq2, hq3, hq4, hq5⟩ := ih (p := p+1) (by omega) (by omega)
      rw [advance_position]
      refine ⟨q, by omega, hq2, hq3, ?_, hq5⟩
      rw [slotsFrom_step hlt, if_pos h.2, hq4]
    next h =>
      refine ⟨p, le_rfl, hp, rfl, rfl, ?_⟩
      intro hlt hz
      apply h
      refine ⟨?_, hz⟩
      rw [hbucket]
      omega

theorem iterEnd_eq (m : CuckooMap K V) : m.iterEnd = position (4*m.allocNumBuckets) := by
  have hpos : (⟨m.allocNumBuckets, 0⟩ : CuckooIter) = position (4*m.allocNumBuckets) :=
    position_eq ⟨m.allocNumBuckets, 0⟩
  unfold iterEnd iterator
  rw [hpos]
  obtain ⟨q, hq1, hq2, hq3, -, -⟩ := skipEmpty_position (m := m) (n := 4*m.allocNumBuckets)
    (p := 4*m.allocNumBuckets) (by omega) le_rfl
  rw [hq3, le_antisymm hq2 hq1]

/-- The loop visits the slots that are not empty, in order. -/
theorem iterLoop_position {fuel q : ℕ} (hf : 4*m.allocNumBuckets-q < fuel)
    (hq : q ≤ 4*m.allocNumBuckets) (hne : q < 4*m.allocNumBuckets →
      (m.buckets (position q).bucket).hashValues (position q).slot ≠ 0) :
    m.iterLoop fuel (position q) = some ((m.slotsFrom q).map (fun p => m.iterEntry (position p))) := by
  induction fuel generalizing q with
  | zero => omega
  | succ fuel ih =>
    rw [iterLoop, iterEnd_eq]
    by_cases hend : q = 4*m.allocNumBuckets
    · rw [if_pos (by rw [hend])]
      simp [slotsFrom, hend]
    · have hlt : q < 4*m.allocNumBuckets := by omega
      rw [if_neg (fun h => hend (position_injective h)), iterNext, advance_position]
      obtain ⟨r, hr1, hr2, hr3, hr4, hr5⟩ := skipEmpty_position (m := m) (n := 4*m.allocNumBuckets)
        (p := q+1) (by omega) (by omega)
      rw [hr3, ih (by omega) hr2 hr5, slotsFrom_step hlt, if_neg (hne hlt), hr4]
      rfl

/-- All rounds of the loop. -/
def iterate (m : CuckooMap K V) : Option (List (Entry K V)) :=
  m.iterLoop (4*m.allocNumBuckets+1) m.iterBegin

theorem iterate_eq (m : CuckooMap K V) :
    m.iterate = some ((m.slotsFrom 0).map (fun p => m.iterEntry (position p))) := by
  have hpos : (⟨0, 0⟩ : CuckooIter) = position 0 := position_eq ⟨0, 0⟩
  obtain ⟨q, -, hq2, hq3, hq4, hq5⟩ := skipEmpty_position (m := m) (n := 4*m.allocNumBuckets)
    (p := 0) (by omega) (Nat.zero_le _)
  unfold iterate iterBegin iterator
  rw [hpos, hq3, iterLoop_position (by omega) hq2 hq5, hq4]

end Positions
variable {m : CuckooMap K V}

theorem mem_slotsFrom {p : ℕ} :
    p ∈ m.slotsFrom 0 ↔ p < 4*m.allocNumBuckets ∧
      m.slot ((position p).bucket, (position p).slot) ≠ none := by
  have hslot := not_congr (slot_none (m := m) (p := ((position p).bucket, (position p).slot)))
  simp only [slotsFrom, List.mem_filter, List.mem_range'_1, ne_eq, hslot, decide_eq_true_eq]
  simp

variable [EntryWord K V] [Zero K] [Zero V] {hasher : K → BitVec 64}

/-- The entries visited are those in the table. -/
theorem Inv.mem_iterate (h : Inv hasher m) (e : Entry K V) :
    e ∈ (m.slotsFrom 0).map (fun p => m.iterEntry (position p)) ↔ m.Holds e := by
  rw [List.mem_map]
  constructor
  · rintro ⟨p, hp, rfl⟩
    obtain ⟨x, hx⟩ := Option.ne_none_iff_exists'.mp (mem_slotsFrom.mp hp).2
    refine ⟨x.2, used_of_slot hx, ?_⟩
    rw [iterEntry, (slot_some.mp hx).2.2]
  · rintro ⟨i, ⟨⟨b, k⟩, x, hs⟩, rfl⟩
    have hb : b < m.allocNumBuckets :=
      Finset.mem_range.mp (Finset.mem_product.mp ((h.placed.ok hs).mem_range hasher h.masked)).1
    have hk := k.isLt
    have hpos : position (4*b+k) = ⟨b, k⟩ := (position_eq ⟨b, k⟩).symm
    refine ⟨4*b+k, mem_slotsFrom.mpr ⟨by omega, ?_⟩, ?_⟩
    · rw [hpos, hs]
      exact Option.some_ne_none _
    · rw [hpos, iterEntry, (slot_some.mp hs).2.2]

/-- No key is visited twice. -/
theorem Inv.nodup_iterate (h : Inv hasher m) :
    ((m.slotsFrom 0).map (fun p => (m.iterEntry (position p)).first)).Nodup := by
  apply List.Nodup.map_on
  · intro p hp q hq hpq
    obtain ⟨x, hx⟩ := Option.ne_none_iff_exists'.mp (mem_slotsFrom.mp hp).2
    obtain ⟨y, hy⟩ := Option.ne_none_iff_exists'.mp (mem_slotsFrom.mp hq).2
    rw [iterEntry, iterEntry, (slot_some.mp hx).2.2, (slot_some.mp hy).2.2] at hpq
    have hxy := h.keys (used_of_slot hx) (used_of_slot hy) hpq
    have hslot : ((position p).bucket, (position p).slot) =
        ((position q).bucket, (position q).slot) :=
      h.slot_unique (x := x.1) (y := y.1) (i := x.2) hx (by rw [hxy]; exact hy)
    apply position_injective
    rw [CuckooIter.mk.injEq]
    exact Prod.mk.inj hslot
  · exact List.Nodup.filter _ List.nodup_range'

end CuckooMap

section System
variable {K V : Type} [EntryWord K V] [Zero K] [Zero V] [DecidableEq K] {hasher : K → BitVec 64}
  {s : CuckooState K V}

/-- In every state a loop over the table ends, and visits every key of the map once, with its
value, and nothing else. -/
theorem cuckoo_iterate (h : (cuckooSystem hasher).Reachable s) :
    ∃ l, s.map.iterate = some l ∧ (l.map Entry.first).Nodup ∧ l.length = s.map.numEntries ∧
      ∀ key value, ⟨key, value⟩ ∈ l ↔ s.spec key = some value := by
  have hok := cuckooOk_reachable h
  have hnodup := hok.inv.nodup_iterate
  refine ⟨_, s.map.iterate_eq, ?_, ?_, ?_⟩
  · rw [List.map_map]
    exact hnodup
  · have hkeys : {k | ∃ e, s.map.Holds e ∧ e.first = k} = (((s.map.slotsFrom 0).map
        (fun p => (s.map.iterEntry (CuckooMap.position p)).first)).toFinset : Set K) := by
      ext k
      simp only [Set.mem_ofPred_eq, List.coe_toFinset, ← hok.inv.mem_iterate]
      simp only [List.mem_map]
      constructor
      · rintro ⟨e, ⟨p, hp, rfl⟩, rfl⟩
        exact ⟨p, hp, rfl⟩
      · rintro ⟨p, hp, rfl⟩
        exact ⟨_, ⟨p, hp, rfl⟩, rfl⟩
    rw [← hok.inv.ncard_keys, hkeys, Set.ncard_coe_finset, List.toFinset_card_of_nodup hnodup,
      List.length_map, List.length_map]
  · intro key value
    rw [hok.inv.mem_iterate, hok.holds]

theorem cuckoo_iterate_small : smallState.map.iterate = some [⟨6, 8⟩] := by
  obtain ⟨l, hl, -, hlen, hmem⟩ := cuckoo_iterate reachable_smallState
  have h6 : (⟨6, 8⟩ : Entry (BitVec 64) (BitVec 64)) ∈ l := (hmem 6 8).mpr (by decide)
  have h1 : l.length = 1 := hlen.trans (by decide)
  obtain ⟨e, rfl⟩ := List.length_eq_one_iff.mp h1
  rw [hl, List.mem_singleton.mp h6]

end System
end Tasvir
