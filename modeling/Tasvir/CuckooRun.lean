import Mathlib.Data.BitVec
import Mathlib.Tactic
import Tasvir.CuckooInv
import Tasvir.Machine

/-! The table as a map from keys to values, over any sequence of insertions, removals and
clears. -/
namespace Tasvir
open SlotTable Machine

namespace CuckooMap
variable {K V : Type} {m m' : CuckooMap K V} [EntryWord K V] [Zero K] [Zero V]
  {hasher : K → BitVec 64}

/-- The entry is in the table. -/
def Holds (m : CuckooMap K V) (e : Entry K V) : Prop := ∃ i, m.Used i ∧ m.entries i = e

/-- `Clear`, from any contents. -/
theorem inv_clear (hasher : K → BitVec 64) (hsize : m.free.size = m.allocNumEntries) (hpos : 0 < m.allocNumEntries)
    (hbound : m.allocNumEntries < 2^31) (hbpos : 0 < m.allocNumBuckets)
    (hbuckets : m.allocNumBuckets ≤ 2^32) :
    Inv hasher m.clear ∧ (∀ i, ¬m.clear.Used i) ∧
      m.clear.allocNumEntries = m.allocNumEntries := by
  generalize hz : ({ (m.setHead 0).mark [.head] with
    buckets := fun _ => ⟨fun _ => 0, fun _ => 0⟩
    entries := fun _ => ⟨0, 0⟩
    numEntries := 0
    bucketMask := BitVec.ofNat 32 (m.allocNumBuckets-1) } : CuckooMap K V) = z
  have hclear : m.clear =
      ((List.range m.allocNumEntries).reverse.foldl pushNoLog z).mark [.head, .stack, .all] := by
    rw [← hz]
    rfl
  have hpush : Pushed z ((List.range m.allocNumEntries).reverse.foldl pushNoLog z)
      (List.range m.allocNumEntries).reverse := by
    apply pushed_foldl
    · intro i hi
      rw [List.mem_reverse, List.mem_range] at hi
      omega
    · rw [← hz, List.length_reverse, List.length_range]
      change 0+m.allocNumEntries ≤ m.free.size
      omega
  generalize hq : (List.range m.allocNumEntries).reverse.foldl pushNoLog z = q at *
  generalize hc : m.clear = c at *
  have hbuck : c.buckets = fun _ => ⟨fun _ => 0, fun _ => 0⟩ := by
    rw [hclear]
    change q.buckets = _
    rw [hpush.buckets, ← hz]
  have hslot (p : ℕ × SlotIndex) : c.slot p = none := by
    rw [slot_none, hbuck]
  have hused (i : ℕ) : ¬c.Used i := by
    rintro ⟨p, x, hp⟩
    rw [hslot] at hp
    cases hp
  have hlist : c.freeList = (List.range m.allocNumEntries).reverse := by
    have hnil : z.freeList = [] := by
      rw [← hz]
      rfl
    rw [hclear]
    change q.freeList = _
    rw [hpush.list, hnil, List.nil_append]
  have hhead : c.free.head = m.allocNumEntries := by
    rw [← length_freeList, hlist, List.length_reverse, List.length_range]
  have halloc : c.allocNumEntries = m.allocNumEntries := by
    rw [hclear]
    change q.allocNumEntries = _
    rw [hpush.allocNumEntries, ← hz]
    rfl
  refine ⟨⟨?_, ?_, ?_, ?_, ?_, ?_, ?_, ?_, ?_, ?_, ?_, ?_⟩, hused, halloc⟩
  · have hmask : c.bucketMask = BitVec.ofNat 32 (m.allocNumBuckets-1) := by
      rw [hclear]
      change q.bucketMask = _
      rw [hpush.mask, ← hz]
    have hnb : c.allocNumBuckets = m.allocNumBuckets := by
      rw [hclear]
      change q.allocNumBuckets = _
      rw [hpush.allocNumBuckets, ← hz]
      rfl
    rw [Masked, hmask, hnb, BitVec.toNat_ofNat, Nat.mod_eq_of_lt (by omega)]
    omega
  · rw [halloc, hclear]
    change q.free.size = _
    rw [hpush.size, ← hz]
    exact hsize
  · omega
  · omega
  · constructor
    · intro p e hp
      rw [hslot] at hp
      cases hp
    · intro p q e hp
      rw [hslot] at hp
      cases hp
  · intro b i
    rw [hbuck, halloc]
    exact hpos
  · intro i j hi
    exact absurd hi (hused i)
  · intro i hi
    exact absurd hi (hused i)
  · rw [hlist]
    exact List.nodup_reverse.mpr List.nodup_range
  · intro i
    rw [hlist, halloc, List.mem_reverse, List.mem_range]
    exact ⟨fun hi => ⟨hi, hused i⟩, fun hi => hi.1⟩
  · have hnum : c.numEntries = 0 := by
      rw [hclear]
      change q.numEntries = _
      rw [hpush.numEntries, ← hz]
    rw [hnum, hhead, halloc, zero_add]
  · intro i hi _
    rw [halloc] at hi ⊢
    have hzero (j : ℕ) : z.entries j = ⟨0, 0⟩ := by rw [← hz]
    have hce : c.entries = q.entries := by rw [hclear]; rfl
    rw [hce]
    by_cases hi0 : i = 0
    · have hqhead : q.free.head = z.free.size := by
        have : q.free.head = m.allocNumEntries := by rw [← hhead, hclear]; rfl
        rw [this, ← hsize, ← hz]
        rfl
      obtain ⟨w, hw, hfirst⟩ := hpush.first (by simp; omega) hqhead
      rw [List.mem_reverse, List.mem_range] at hw
      rw [hi0, hfirst, hzero]
      exact .inr ⟨w, hw, rfl⟩
    · rw [hpush.entries (fun _ => hi0), hzero]
      exact .inl rfl

/-- `Create` checks the counts. -/
theorem inv_create {c : CuckooMap K V} {sizeofEntry area entries buckets : ℕ}
    (hbound : entries < 2^31) (h : m.create sizeofEntry area entries buckets = some c) :
    Inv hasher c ∧ (∀ i, ¬c.Used i) ∧ c.allocNumEntries = entries := by
  unfold create at h
  split at h
  · cases h
  · split at h
    · cases h
    next hcounts =>
      push Not at hcounts
      rw [← Option.some.inj h]
      apply inv_clear hasher rfl
      · exact Nat.pos_of_ne_zero hcounts.2.1
      · exact hbound
      · exact Nat.pos_of_ne_zero hcounts.1
      · have hle := hcounts.2.2.2
        change buckets ≤ 2^32
        omega

section Find
variable [DecidableEq K]

omit [EntryWord K V] [Zero K] [Zero V] in
theorem getFromBucket_some {x : HashResult} {b i : ℕ} {key : K} (hx : x ≠ 0)
    (h : m.getFromBucket x b key = some i) : m.Used i ∧ (m.entries i).first = key := by
  obtain ⟨s, hs, rfl⟩ := Option.map_eq_some_iff.mp h
  obtain ⟨h1, h2⟩ := findSlot_some hs
  exact ⟨⟨(b, s), x, slot_some.mpr ⟨hx, h1, rfl⟩⟩, h2⟩

theorem Inv.getFromBucket (h : Inv hasher m) {x : HashResult} {b i : ℕ} {s : SlotIndex}
    (hs : m.slot (b, s) = some (x, i)) : m.getFromBucket x b (m.entries i).first = some i := by
  obtain ⟨hx, h1, h2⟩ := slot_some.mp hs
  simp only at h1 h2
  have hfound : m.findSlot (m.buckets b) x (m.entries i).first ≠ none := by
    intro hn
    have := List.find?_eq_none.mp hn s (List.mem_finRange s)
    simp [h1, h2] at this
  obtain ⟨t, ht⟩ := Option.ne_none_iff_exists'.mp hfound
  have hget : m.getFromBucket x b (m.entries i).first = some ((m.buckets b).entryIndices t) := by
    rw [CuckooMap.getFromBucket, ht]
    rfl
  obtain ⟨hu, hk⟩ := getFromBucket_some hx hget
  rw [hget, h.keys hu ⟨_, _, hs⟩ hk]

/-- A key is found by its hash value exactly when an entry in some slot has it. -/
theorem Inv.findWithHash_iff (h : Inv hasher m) {key : K} {i : ℕ} :
    m.findWithHash (hashPrimary hasher key) key = some i ↔
      m.Used i ∧ (m.entries i).first = key := by
  have hx := hashPrimary_ne_zero hasher key
  constructor
  · intro hf
    unfold findWithHash at hf
    split at hf
    next j hj =>
      cases hf
      exact getFromBucket_some hx hj
    next => exact getFromBucket_some hx hf
  · rintro ⟨hu, hk⟩
    obtain ⟨⟨b, s⟩, x, hs⟩ := hu
    have hg := h.placed.ok hs
    have hxk : x = hashPrimary hasher key := by rw [h.slot_hash hs, hk]
    subst hxk
    have hget := h.getFromBucket hs
    rw [hk] at hget
    unfold findWithHash
    split
    next j hj =>
      obtain ⟨hu', hk'⟩ := getFromBucket_some hx hj
      rw [h.keys hu' ⟨_, _, hs⟩ (by rw [hk', hk])]
    next hnone =>
      rcases hg.bucket with hb | hb
      · simp only at hb
        rw [← hb, hget] at hnone
        cases hnone
      · simp only [home] at hb
        rw [← hb]
        exact hget

/-- How `AddEntry` ends: entries have been moved around, and then the new one was added, or
there is no place for it. -/
def AddSpec (hasher : K → BitVec 64) (m : CuckooMap K V) (key : K) (value : V)
    (r : Option ℕ × CuckooMap K V) : Prop :=
  ∃ m₁, Rearranged m m₁ ∧ Inv hasher m₁ ∧
    match r.1 with
    | some i => Added hasher m₁ r.2 i key value
    | none => r.2 = m₁ ∧ (m.free.head = 0 ∨ m₁.Full (m.bucketOf (hashPrimary hasher key)) ∧
        m₁.Full (m.bucketOf (hashSecondary (hashPrimary hasher key))))

omit [DecidableEq K] in
theorem AddSpec.of_rearranged {key : K} {value : V} {r : Option ℕ × CuckooMap K V}
    (hre : Rearranged m m') (h : AddSpec hasher m' key value r) : AddSpec hasher m key value r := by
  obtain ⟨m₁, hre₁, hinv, hr⟩ := h
  refine ⟨m₁, hre.trans hre₁, hinv, ?_⟩
  rwa [hre.free, hre.bucketOf, hre.bucketOf] at hr

omit [DecidableEq K] in
/-- `AddEntry` returns: each time around there is less effort left. -/
theorem Inv.addEntry (h : Inv hasher m) {key : K} (value : V)
    (hkey : ∀ i, m.Used i → (m.entries i).first ≠ key)
    (hsec : hashSecondary (hashPrimary hasher key) ≠ 0) {fuel : ℕ} (hfuel : m.effort < fuel) :
    ∃ r, m.addEntry hasher (hashPrimary hasher key) (hashSecondary (hashPrimary hasher key)) key
      value fuel = some r ∧ AddSpec hasher m key value r := by
  induction fuel generalizing m with
  | zero => exact absurd hfuel (Nat.not_lt_zero _)
  | succ fuel ih =>
    have hspace {index : ℕ} {i : SlotIndex} {m' : CuckooMap K V}
        (hroom : m.Full index ∨ m.free.head = 0)
        (hm : m.makeSpace hasher maxCuckooPath index = some (i, m')) :
        ∃ r, m'.addEntry hasher (hashPrimary hasher key) (hashSecondary (hashPrimary hasher key)) key
          value fuel = some r ∧ AddSpec hasher m key value r := by
      have hstop : m.Stops hasher index := by
        rcases hroom with hf | hf
        · exact hf.stops hasher
        · exact h.stops hf index
      obtain ⟨hs, heff⟩ := makeSpace_spec hasher h.masked h.placed hstop hm
      have hkey' (j : ℕ) (hj : m'.Used j) : (m'.entries j).first ≠ key := by
        rw [hs.re.entries]
        exact hkey j ((hs.re.used j).mp hj)
      obtain ⟨r, hr, hspec⟩ := ih (h.rearranged hs.re hs.placed) hkey' (by omega)
      exact ⟨r, hr, hspec.of_rearranged hs.re⟩
    unfold CuckooMap.addEntry
    rcases h.addToBucket value (.inl rfl) hkey hsec with ⟨hp, hpfull⟩ | ⟨i, m', hp, hadd⟩
    · rw [hp]
      simp only
      rcases h.addToBucket value (.inr rfl) hkey hsec with ⟨hq, hqfull⟩ | ⟨i, m', hq, hadd⟩
      · rw [hq]
        simp only
        split
        next i m' hm => exact hspace hpfull hm
        next =>
          split
          next i m' hm => exact hspace hqfull hm
          next =>
            refine ⟨_, rfl, m, .refl m, h, rfl, ?_⟩
            rcases hpfull with hpf | hpf
            · rcases hqfull with hqf | hqf
              · exact .inr ⟨hpf, hqf⟩
              · exact .inl hqf
            · exact .inl hpf
      · rw [hq]
        exact ⟨_, rfl, m, .refl m, h, hadd⟩
    · rw [hp]
      exact ⟨_, rfl, m, .refl m, h, hadd⟩

omit [EntryWord K V] [Zero K] [Zero V] [DecidableEq K] in
theorem Rearranged.holds (h : Rearranged m m') (e : Entry K V) : m'.Holds e ↔ m.Holds e := by
  simp only [Holds, h.entries, h.used]

omit [DecidableEq K] in
theorem Added.holds {i : ℕ} {key : K} {value : V} (h : Added hasher m m' i key value)
    (hkey : ∀ j, m.Used j → (m.entries j).first ≠ key) (e : Entry K V) :
    m'.Holds e ↔ e = ⟨key, value⟩ ∨ e.first ≠ key ∧ m.Holds e := by
  have hnew : m'.entries i = ⟨key, value⟩ := by rw [h.entries, Function.update_self]
  have hold {j : ℕ} (hj : m.Used j) : m'.entries j = m.entries j := by
    rw [h.entries, Function.update_of_ne]
    rintro rfl
    exact h.fresh hj
  constructor
  · rintro ⟨j, hj, rfl⟩
    rcases (h.used j).mp hj with hj | rfl
    · rw [hold hj]
      exact .inr ⟨hkey j hj, j, hj, rfl⟩
    · exact .inl hnew
  · rintro (rfl | ⟨-, j, hj, rfl⟩)
    · exact ⟨i, (h.used i).mpr (.inr rfl), hnew⟩
    · exact ⟨j, (h.used j).mpr (.inl hj), hold hj⟩

/-- `Find` returns the entry with the key. -/
theorem Inv.find_iff (h : Inv hasher m) {key : K} {e : Entry K V} :
    m.find hasher key = some e ↔ m.Holds e ∧ e.first = key := by
  unfold CuckooMap.find
  rw [Option.map_eq_some_iff]
  constructor
  · rintro ⟨i, hi, rfl⟩
    obtain ⟨hu, hk⟩ := h.findWithHash_iff.mp hi
    exact ⟨⟨i, hu, rfl⟩, hk⟩
  · rintro ⟨⟨i, hu, rfl⟩, hk⟩
    exact ⟨i, h.findWithHash_iff.mpr ⟨hu, hk⟩, rfl⟩

omit [DecidableEq K] in
theorem Inv.holds_setValue (h : Inv hasher m) {i : ℕ} (hi : m.Used i) (value : V) (ms : List Mark)
    (e : Entry K V) :
    ((m.setEntry i { m.entries i with second := value }).mark ms).Holds e ↔
      e = ⟨(m.entries i).first, value⟩ ∨ e.first ≠ (m.entries i).first ∧ m.Holds e := by
  set m' := (m.setEntry i { m.entries i with second := value }).mark ms with hm'
  have hused (j : ℕ) : m'.Used j ↔ m.Used j := used_congr rfl j
  have hnew : m'.entries i = ⟨(m.entries i).first, value⟩ := by simp [hm', mark, setEntry]
  have hold {j : ℕ} (hj : j ≠ i) : m'.entries j = m.entries j := by simp [hm', mark, setEntry, hj]
  constructor
  · rintro ⟨j, hj, rfl⟩
    rw [hused] at hj
    by_cases hji : j = i
    · rw [hji]
      exact .inl hnew
    · rw [hold hji]
      exact .inr ⟨fun hk => hji (h.keys hj hi hk), j, hj, rfl⟩
  · rintro (rfl | ⟨hk, j, hj, rfl⟩)
    · exact ⟨i, (hused i).mpr hi, hnew⟩
    · have hji : j ≠ i := by
        rintro rfl
        exact hk rfl
      exact ⟨j, (hused j).mpr hj, hold hji⟩

/-- `Insert` returns, with the entry, or without when the key is not there and the entries
are used up or its two buckets are full. -/
theorem Inv.insert (h : Inv hasher m) {key : K} (value : V)
    (hsec : hashSecondary (hashPrimary hasher key) ≠ 0) {fuel : ℕ} (hfuel : m.effort < fuel) :
    ∃ r m', m.insert hasher fuel key value = some (r, m') ∧ Inv hasher m' ∧ Logged m m' ∧
      match r with
      | some i => m'.entries i = ⟨key, value⟩ ∧
          ∀ e, m'.Holds e ↔ e = ⟨key, value⟩ ∨ e.first ≠ key ∧ m.Holds e
      | none => (∀ e, m'.Holds e ↔ m.Holds e) ∧ (∀ e, m.Holds e → e.first ≠ key) ∧
          (m.free.head = 0 ∨ m'.Full (m'.bucketOf (hashPrimary hasher key)) ∧
            m'.Full (m'.bucketOf (hashSecondary (hashPrimary hasher key)))) := by
  unfold CuckooMap.insert
  simp only
  cases hf : m.findWithHash (hashPrimary hasher key) key with
  | some i =>
    obtain ⟨hu, hk⟩ := h.findWithHash_iff.mp hf
    have hhold := h.holds_setValue hu value [.entry i]
    simp only
    rw [if_neg (not_not.mpr hk)]
    rw [hk] at hhold
    refine ⟨_, _, rfl, h.setValue hu value _, logged_setValue i _, ?_, hhold⟩
    simp [mark, setEntry, hk]
  | none =>
    have hkey (i : ℕ) (hi : m.Used i) : (m.entries i).first ≠ key := by
      intro hk
      rw [h.findWithHash_iff.mpr ⟨hi, hk⟩] at hf
      cases hf
    obtain ⟨⟨r, m'⟩, hr, m₁, hre, hinv, hspec⟩ := h.addEntry value hkey hsec hfuel
    simp only [hr]
    cases r with
    | some i =>
      simp only at hspec
      have hkey₁ (j : ℕ) (hj : m₁.Used j) : (m₁.entries j).first ≠ key := by
        rw [hre.entries]
        exact hkey j ((hre.used j).mp hj)
      refine ⟨_, _, rfl, hspec.inv, hre.logged.trans hspec.logged, ?_, ?_⟩
      · rw [hspec.entries, Function.update_self]
      · intro e
        rw [hspec.holds hkey₁, hre.holds]
    | none =>
      obtain ⟨rfl, hfull⟩ := hspec
      refine ⟨_, _, rfl, hinv, hre.logged, hre.holds, ?_, ?_⟩
      · rintro e ⟨i, hi, rfl⟩
        exact hkey i hi
      · rw [hre.bucketOf, hre.bucketOf]
        exact hfull

omit [DecidableEq K] in
theorem Removed.holds {i : ℕ} (hinv : Inv hasher m) (h : Removed hasher m m' i) (e : Entry K V) :
    m'.Holds e ↔ e.first ≠ (m.entries i).first ∧ m.Holds e := by
  constructor
  · rintro ⟨j, hj, rfl⟩
    obtain ⟨hj', hji⟩ := (h.used j).mp hj
    rw [h.entries hj]
    exact ⟨fun hk => hji (hinv.keys hj' h.was hk), j, hj', rfl⟩
  · rintro ⟨hk, j, hj, rfl⟩
    have hj' : m'.Used j := by
      refine (h.used j).mpr ⟨hj, ?_⟩
      rintro rfl
      exact hk rfl
    exact ⟨j, hj', h.entries hj'⟩

/-- How `Remove` ends. -/
def RemoveSpec (hasher : K → BitVec 64) (m : CuckooMap K V) (key : K) (r : Bool × CuckooMap K V) :
    Prop :=
  (r = (false, m) ∧ m.findWithHash (hashPrimary hasher key) key = none) ∨
    r.1 = true ∧ ∃ i, (m.entries i).first = key ∧ Removed hasher m r.2 i

theorem Inv.remove (h : Inv hasher m) (key : K) : RemoveSpec hasher m key (m.remove hasher key) := by
  have hx := hashPrimary_ne_zero hasher key
  have hbucket (b : ℕ) (hf : m.getFromBucket (hashPrimary hasher key) b key ≠ none) :
      ∃ m' i, m.removeFromBucket (hashPrimary hasher key) b key = (true, m') ∧
        (m.entries i).first = key ∧ Removed hasher m m' i := by
    have hs : m.findSlot (m.buckets b) (hashPrimary hasher key) key ≠ none := by
      intro hn
      apply hf
      rw [CuckooMap.getFromBucket, hn]
      rfl
    obtain ⟨s, hs⟩ := Option.ne_none_iff_exists'.mp hs
    obtain ⟨m', hm', hrem⟩ := h.removeFromBucket hx hs
    exact ⟨m', _, hm', (findSlot_some hs).2, hrem⟩
  have hnone (b : ℕ) (hf : m.getFromBucket (hashPrimary hasher key) b key = none) :
      m.removeFromBucket (hashPrimary hasher key) b key = (false, m) := by
    have hs := Option.map_eq_none_iff.mp hf
    rw [CuckooMap.removeFromBucket, hs]
  unfold CuckooMap.remove RemoveSpec findWithHash
  simp only
  cases hp : m.getFromBucket (hashPrimary hasher key) (m.bucketOf (hashPrimary hasher key)) key with
  | some i =>
    obtain ⟨m', i, hm', hk, hrem⟩ := hbucket _ (by rw [hp]; exact Option.some_ne_none _)
    rw [hm']
    exact .inr ⟨rfl, i, hk, hrem⟩
  | none =>
    rw [hnone _ hp]
    simp only
    cases hq : m.getFromBucket (hashPrimary hasher key)
      (m.bucketOf (hashSecondary (hashPrimary hasher key))) key with
    | some i =>
      obtain ⟨m', i, hm', hk, hrem⟩ := hbucket _ (by rw [hq]; exact Option.some_ne_none _)
      rw [hm']
      exact .inr ⟨rfl, i, hk, hrem⟩
    | none =>
      rw [hnone _ hq]
      exact .inl ⟨rfl, rfl⟩

end Find

/-- The entries in use are those that are not on the stack. -/
theorem Inv.ncard_used (h : Inv hasher m) : {i | m.Used i}.ncard = m.numEntries := by
  have hset : {i | m.Used i} =
      ((Finset.range m.allocNumEntries \ m.freeList.toFinset : Finset ℕ) : Set ℕ) := by
    ext i
    simp only [Set.mem_ofPred_eq, Finset.coe_sdiff, Finset.coe_range, List.coe_toFinset, Set.mem_sdiff,
      Set.mem_Iio, h.mem_freeList, not_and, not_not]
    exact ⟨fun hi => ⟨h.used_lt hi, fun _ => hi⟩, fun hi => hi.2 hi.1⟩
  have hsub : m.freeList.toFinset ⊆ Finset.range m.allocNumEntries := by
    intro i hi
    exact Finset.mem_range.mpr (h.mem_freeList.mp (List.mem_toFinset.mp hi)).1
  have hcount := h.count
  rw [hset, Set.ncard_coe_finset, Finset.card_sdiff_of_subset hsub, Finset.card_range,
    List.toFinset_card_of_nodup h.nodup, length_freeList]
  omega

theorem Inv.ncard_keys (h : Inv hasher m) : {k | ∃ e, m.Holds e ∧ e.first = k}.ncard = m.numEntries := by
  have himage : {k | ∃ e, m.Holds e ∧ e.first = k} =
      (fun i => (m.entries i).first) '' {i | m.Used i} := by
    ext k
    constructor
    · rintro ⟨e, ⟨i, hi, rfl⟩, rfl⟩
      exact ⟨i, hi, rfl⟩
    · rintro ⟨i, hi, rfl⟩
      exact ⟨_, ⟨i, hi, rfl⟩, rfl⟩
  rw [himage, Set.InjOn.ncard_image, h.ncard_used]
  intro i hi j hj hij
  exact h.keys hi hj hij

end CuckooMap

namespace CuckooMap
variable {K V : Type} {m : CuckooMap K V} {hasher : K → BitVec 64}

/-- No entry is free, and the first slot of the bucket is empty but has the index of a key with
the secondary hash value zero, whose primary bucket has an empty slot. -/
structure Stuck (hasher : K → BitVec 64) (m : CuckooMap K V) (b : ℕ) : Prop where
  head : m.free.head = 0
  empty : (m.buckets b).hashValues 0 = 0
  zero : hashSecondary (hashPrimary hasher (m.entries ((m.buckets b).entryIndices 0)).first) = 0
  room : findEmptySlot (m.buckets (m.bucketOf
    (hashPrimary hasher (m.entries ((m.buckets b).entryIndices 0)).first))) ≠ none

/-- The empty slot passes for one that holds the key, and the call moves nothing. -/
theorem Stuck.makeSpace {b : ℕ} (h : Stuck hasher m b) (n : ℕ) :
    ∃ m', m.makeSpace hasher (n+1) b = some (0, m') ∧ Stuck hasher m' b ∧
      m'.bucketMask = m.bucketMask := by
  obtain ⟨j, hj⟩ := Option.ne_none_iff_exists'.mp h.room
  have hj0 := (findEmptySlot_some hj).1
  have halt : m.altIndex hasher b 0 = some (m.bucketOf
      (hashPrimary hasher (m.entries ((m.buckets b).entryIndices 0)).first)) := by
    simp only [altIndex, h.empty]
    rw [if_neg (hashPrimary_ne_zero hasher _), if_pos h.zero]
  generalize hx : m.bucketOf (hashPrimary hasher (m.entries ((m.buckets b).entryIndices 0)).first) =
    alt at *
  have hspace : m.makeSpace hasher (n+1) b = some (0, m.moveEntry b 0 alt j) := by
    have hlist : List.finRange 4 = (0 : SlotIndex) :: [1, 2, 3] := rfl
    simp only [CuckooMap.makeSpace, hlist, makeSpaceFrom, halt, hj]
  have hhash (c : ℕ) : ((m.moveEntry b 0 alt j).buckets c).hashValues = (m.buckets c).hashValues := by
    funext k
    have hslot := slot_moveEntry (m := m) b 0 alt j
    rw [moveSlot_empty (slot_none.mpr h.empty) (slot_none.mpr hj0)] at hslot
    have hck := congrFun hslot (c, k)
    cases hs : m.slot (c, k) with
    | none =>
      rw [hs] at hck
      have h1 := slot_none.mp hck
      have h2 := slot_none.mp hs
      simp only at h1 h2
      rw [h1, h2]
    | some e =>
      rw [hs] at hck
      exact (slot_some.mp hck).2.1.trans (slot_some.mp hs).2.1.symm
  have hindex : ((m.moveEntry b 0 alt j).buckets b).entryIndices 0 = (m.buckets b).entryIndices 0 := by
    by_cases hb : b = alt
    · subst hb
      by_cases hk : (0 : SlotIndex) = j
      · subst hk
        simp [moveEntry, mark, setIndex, setBucket]
      · simp [moveEntry, mark, setIndex, setBucket, hk]
    · simp [moveEntry, mark, setIndex, setBucket, hb]
  refine ⟨_, hspace, ⟨h.head, ?_, ?_, ?_⟩, rfl⟩
  · rw [hhash, h.empty]
  · rw [hindex]
    exact h.zero
  · have hsame (c : ℕ) : findEmptySlot ((m.moveEntry b 0 alt j).buckets c) =
        findEmptySlot (m.buckets c) := by
      rw [findEmptySlot, findEmptySlot, hhash]
    rw [hindex, hsame]
    have hmask : (m.moveEntry b 0 alt j).bucketOf (hashPrimary hasher
        ((m.moveEntry b 0 alt j).entries ((m.buckets b).entryIndices 0)).first) = alt := hx
    rw [hmask, hj]
    exact Option.some_ne_none _

/-- An insertion of a new key into such a table goes around `again` for ever. -/
theorem insert_never_returns [EntryWord K V] [DecidableEq K] {key : K} (value : V)
    (hnew : m.findWithHash (hashPrimary hasher key) key = none)
    (h : Stuck hasher m (m.bucketOf (hashPrimary hasher key))) (fuel : ℕ) :
    m.insert hasher fuel key value = none := by
  unfold CuckooMap.insert
  simp only [hnew]
  clear hnew
  induction fuel generalizing m with
  | zero => rfl
  | succ fuel ih =>
    have hadd (b : ℕ) : m.addToBucket hasher b key value = (none, m) := by
      unfold CuckooMap.addToBucket
      split
      · rfl
      · simp [popFreeEntryIndex, h.head]
    obtain ⟨m', hm', hstuck, hmask⟩ := h.makeSpace 2
    have hb : m'.bucketOf (hashPrimary hasher key) = m.bucketOf (hashPrimary hasher key) := by
      rw [bucketOf, bucketOf, hmask]
    unfold CuckooMap.addEntry
    simp only [hadd]
    have hpath : m.makeSpace hasher maxCuckooPath (m.bucketOf (hashPrimary hasher key)) =
      some (0, m') := hm'
    rw [hpath]
    exact ih (by rw [hb]; exact hstuck)

/-- A table of two buckets and two entries. The entry that key 1 had in the second bucket goes to
a key of the first one with the secondary hash value zero. -/
def stuckTable : Option (CuckooMap (BitVec 64) (BitVec 64)) := do
  let m ← create ⟨0, 0, 0, 0, ⟨0, 0, fun _ => 0⟩, fun _ => ⟨fun _ => 0, fun _ => 0⟩,
    fun _ => ⟨0, 0⟩, []⟩ 16 (areaSize 16 2 2) 2 2
  let (_, m) ← m.insert id 1 1 0
  let (_, m) ← m.insert id 1 4 0
  let (_, m) := m.remove id 1
  let (_, m) ← m.insert id 1 0xb55a95f2 0
  some m

theorem insert_never_returns_small :
    ∃ m, stuckTable = some m ∧ ∀ fuel, m.insert id fuel 3 0 = none := by
  have hsome : stuckTable.isSome := by decide +kernel
  have hnew : ∀ m ∈ stuckTable, m.findWithHash (hashPrimary id 3) 3 = none := by decide +kernel
  have hhead : ∀ m ∈ stuckTable, m.free.head = 0 := by decide +kernel
  have hempty : ∀ m ∈ stuckTable,
      (m.buckets (m.bucketOf (hashPrimary id 3))).hashValues 0 = 0 := by decide +kernel
  have hzero : ∀ m ∈ stuckTable, hashSecondary (hashPrimary id (m.entries
      ((m.buckets (m.bucketOf (hashPrimary id 3))).entryIndices 0)).first) = 0 := by decide +kernel
  have hroom : ∀ m ∈ stuckTable, findEmptySlot (m.buckets (m.bucketOf (hashPrimary id (m.entries
      ((m.buckets (m.bucketOf (hashPrimary id 3))).entryIndices 0)).first))) ≠ none := by
    decide +kernel
  obtain ⟨m, hm⟩ := Option.isSome_iff_exists.mp hsome
  refine ⟨m, hm, ?_⟩
  exact insert_never_returns 0 (hnew m hm)
    ⟨hhead m hm, hempty m hm, hzero m hm, hroom m hm⟩

end CuckooMap

section System
variable {K V : Type} [EntryWord K V] [Zero K] [Zero V] [DecidableEq K]

inductive CuckooOp (K V : Type)
  | insert (key : K) (value : V)
  | remove (key : K)
  | clear

/-- The table and the map it stands for. -/
structure CuckooState (K V : Type) where
  map : CuckooMap K V
  spec : K → Option V

/-- The calls on a table made by `Create`. A key whose secondary hash value is zero is not
inserted: `MakeSpace` takes an empty slot for one that holds it. -/
def cuckooSystem (hasher : K → BitVec 64) : System (CuckooState K V) (CuckooOp K V) where
  init s := (∃ (m : CuckooMap K V) (sizeofEntry area entries buckets : ℕ), entries < 2^31 ∧
    m.create sizeofEntry area entries buckets = some s.map) ∧ s.spec = fun _ => none
  pre _ a := match a with
    | .insert key _ => hashSecondary (hashPrimary hasher key) ≠ 0
    | _ => True
  next s a := match a with
    | .insert key value =>
      match s.map.insert hasher (s.map.effort+1) key value with
      | some (some _, m) => ⟨m, Function.update s.spec key (some value)⟩
      | some (none, m) => ⟨m, s.spec⟩
      | none => s
    | .remove key => ⟨(s.map.remove hasher key).2, Function.update s.spec key none⟩
    | .clear => ⟨s.map.clear, fun _ => none⟩

/-- The table holds what the map says. -/
structure CuckooOk (hasher : K → BitVec 64) (s : CuckooState K V) : Prop where
  inv : s.map.Inv hasher
  holds : ∀ key value, s.spec key = some value ↔ s.map.Holds ⟨key, value⟩

omit [DecidableEq K] in
theorem cuckooOk_empty {hasher : K → BitVec 64} {m : CuckooMap K V} (h : m.Inv hasher)
    (hu : ∀ i, ¬m.Used i) : CuckooOk hasher (⟨m, fun _ => none⟩ : CuckooState K V) := by
  refine ⟨h, ?_⟩
  intro key value
  constructor
  · intro hn
    cases hn
  · rintro ⟨i, hi, -⟩
    exact absurd hi (hu i)

variable {hasher : K → BitVec 64} {s : CuckooState K V}

theorem CuckooOk.insert (h : CuckooOk hasher s) {key : K} (value : V)
    (hsec : hashSecondary (hashPrimary hasher key) ≠ 0) :
    CuckooOk hasher ((cuckooSystem hasher).next s (.insert key value)) := by
  obtain ⟨r, m', hr, hinv, -, hspec⟩ := h.inv.insert value hsec (Nat.lt_succ_self _)
  simp only [cuckooSystem, hr]
  cases r with
  | none =>
    refine ⟨hinv, ?_⟩
    intro k v
    rw [hspec.1]
    exact h.holds k v
  | some i =>
    refine ⟨hinv, ?_⟩
    intro k v
    change Function.update s.spec key (some value) k = some v ↔ m'.Holds ⟨k, v⟩
    rw [hspec.2]
    by_cases hk : k = key
    · subst hk
      rw [Function.update_self]
      simp [eq_comm]
    · rw [Function.update_of_ne hk, h.holds]
      simp [hk]

theorem CuckooOk.remove (h : CuckooOk hasher s) (key : K) :
    CuckooOk hasher ((cuckooSystem hasher).next s (.remove key)) := by
  simp only [cuckooSystem]
  rcases h.inv.remove key with ⟨hr, hnone⟩ | ⟨-, i, rfl, hrem⟩
  · rw [hr]
    refine ⟨h.inv, ?_⟩
    intro k v
    dsimp only
    by_cases hk : k = key
    · subst hk
      rw [Function.update_self]
      constructor
      · intro hn
        cases hn
      · rintro ⟨i, hi, he⟩
        rw [h.inv.findWithHash_iff.mpr ⟨hi, by rw [he]⟩] at hnone
        cases hnone
    · rw [Function.update_of_ne hk]
      exact h.holds k v
  · refine ⟨hrem.inv, ?_⟩
    intro k v
    dsimp only
    rw [hrem.holds h.inv]
    by_cases hk : k = (s.map.entries i).first
    · rw [hk, Function.update_self]
      simp
    · rw [Function.update_of_ne hk, h.holds]
      simp [hk]

theorem CuckooOk.clear (h : CuckooOk hasher s) :
    CuckooOk hasher ((cuckooSystem hasher).next s .clear) := by
  have hnb := h.inv.masked
  have hlt := s.map.bucketMask.isLt
  have hpos : 0 < s.map.allocNumBuckets := by
    rw [← hnb]
    exact Nat.succ_pos _
  have hle : s.map.allocNumBuckets ≤ 2^32 := by
    rw [← hnb]
    omega
  obtain ⟨hinv, hu, -⟩ := CuckooMap.inv_clear hasher h.inv.size h.inv.pos h.inv.bound hpos
    hle
  exact cuckooOk_empty hinv hu

theorem CuckooOk.step (h : CuckooOk hasher s) {a : CuckooOp K V}
    (hp : (cuckooSystem hasher).pre s a) : CuckooOk hasher ((cuckooSystem hasher).next s a) := by
  cases a with
  | insert key value => exact h.insert value hp
  | remove key => exact h.remove key
  | clear => exact h.clear

theorem cuckooOk_init (h : (cuckooSystem hasher).init s) : CuckooOk hasher s := by
  obtain ⟨map, spec⟩ := s
  obtain ⟨⟨m, sizeofEntry, area, entries, buckets, hbound, hc⟩, hspec⟩ := h
  obtain ⟨hinv, hu, -⟩ := CuckooMap.inv_create hbound hc
  simp only at hspec
  rw [hspec]
  exact cuckooOk_empty hinv hu

theorem cuckooOk_reachable (h : (cuckooSystem hasher).Reachable s) : CuckooOk hasher s :=
  h.invariant (fun _ => cuckooOk_init) (fun _ _ hs hp => hs.step hp)

theorem CuckooOk.find (h : CuckooOk hasher s) (key : K) :
    s.map.find hasher key = (s.spec key).map (fun value => ⟨key, value⟩) := by
  cases hs : s.spec key with
  | none =>
    rw [Option.map_none]
    apply Option.eq_none_iff_forall_not_mem.mpr
    intro e he
    obtain ⟨hh, rfl⟩ := h.inv.find_iff.mp he
    have := (h.holds e.first e.second).mpr hh
    rw [hs] at this
    cases this
  | some value =>
    rw [Option.map_some]
    exact h.inv.find_iff.mpr ⟨(h.holds key value).mp hs, rfl⟩

/-- In every state `Find` returns what was inserted last and not removed since, and the
count is the number of keys. -/
theorem cuckoo_find (h : (cuckooSystem hasher).Reachable s) :
    (∀ key, s.map.find hasher key = (s.spec key).map (fun value => ⟨key, value⟩)) ∧
      s.map.numEntries = {key | s.spec key ≠ none}.ncard := by
  have hok := cuckooOk_reachable h
  refine ⟨hok.find, ?_⟩
  rw [← hok.inv.ncard_keys]
  congr 1
  ext key
  constructor
  · rintro ⟨e, he, rfl⟩
    have := (hok.holds e.first e.second).mpr he
    simp [this]
  · intro hk
    obtain ⟨value, hv⟩ := Option.ne_none_iff_exists'.mp hk
    exact ⟨⟨key, value⟩, (hok.holds key value).mp hv, rfl⟩

/-- A table of four entries and two buckets, as `Create` leaves it. -/
def smallTable : CuckooMap (BitVec 64) (BitVec 64) :=
  CuckooMap.clear ⟨0, 0, 2, 4, ⟨0, 4, fun _ => 0⟩, fun _ => ⟨fun _ => 0, fun _ => 0⟩,
    fun _ => ⟨0, 0⟩, []⟩

/-- The table after two insertions and a removal. -/
def smallState : CuckooState (BitVec 64) (BitVec 64) :=
  (cuckooSystem id).run ⟨smallTable, fun _ => none⟩ [.insert 5 7, .insert 6 8, .remove 5]

theorem reachable_smallState : (cuckooSystem id).Reachable smallState := by
  apply System.Reachable.run
  · exact .init ⟨⟨⟨0, 0, 2, 4, ⟨0, 4, fun _ => 0⟩, fun _ => ⟨fun _ => 0, fun _ => 0⟩,
      fun _ => ⟨0, 0⟩, []⟩, 16, 216, 4, 2, by norm_num, rfl⟩, rfl⟩
  · have h5 : hashSecondary (hashPrimary id (5 : BitVec 64)) ≠ 0 := by decide
    have h6 : hashSecondary (hashPrimary id (6 : BitVec 64)) ≠ 0 := by decide
    exact ⟨h5, h6, trivial, trivial⟩

theorem cuckoo_find_small : smallState.map.find id 6 = some ⟨6, 8⟩ ∧
    smallState.map.find id 5 = none :=
  ⟨((cuckoo_find reachable_smallState).1 6).trans (by decide),
    ((cuckoo_find reachable_smallState).1 5).trans (by decide)⟩

/-- In every state `Insert` returns. A key that is there is never refused; another is refused
only with all entries in use or its two buckets full, and then every look-up is as before. -/
theorem cuckoo_insert (h : (cuckooSystem hasher).Reachable s) (key : K) (value : V)
    (hsec : hashSecondary (hashPrimary hasher key) ≠ 0) :
    ∃ r m', s.map.insert hasher (s.map.effort+1) key value = some (r, m') ∧
      (r = none → s.spec key = none ∧ (∀ k, m'.find hasher k = s.map.find hasher k) ∧
        (s.map.numEntries = s.map.allocNumEntries ∨
          m'.Full (m'.bucketOf (hashPrimary hasher key)) ∧
            m'.Full (m'.bucketOf (hashSecondary (hashPrimary hasher key))))) := by
  have hok := cuckooOk_reachable h
  obtain ⟨r, m', hr, hinv, -, hspec⟩ := hok.inv.insert value hsec (Nat.lt_succ_self _)
  refine ⟨r, m', hr, ?_⟩
  rintro rfl
  obtain ⟨hholds, hkey, hfull⟩ := hspec
  refine ⟨?_, ?_, ?_⟩
  · apply Option.eq_none_iff_forall_not_mem.mpr
    intro v hv
    exact hkey _ ((hok.holds key v).mp hv) rfl
  · intro k
    apply Option.ext
    intro e
    rw [hinv.find_iff, hok.inv.find_iff, hholds]
  · have hcount := hok.inv.count
    exact hfull.imp_left (fun h0 => by omega)

theorem cuckoo_insert_small :
    ∃ r m', smallState.map.insert id (smallState.map.effort+1) 9 1 = some (r, m') := by
  obtain ⟨r, m', hr, -⟩ := cuckoo_insert reachable_smallState 9 1 (by decide)
  exact ⟨r, m', hr⟩

/-- In every state every entry is on the stack of free entries once or in one slot, which is
in one of the two buckets of its key. -/
theorem cuckoo_entries (h : (cuckooSystem hasher).Reachable s) (i : ℕ)
    (hi : i < s.map.allocNumEntries) :
    (s.map.freeList.count i = 1 ∧ ¬∃ p x, s.map.slot p = some (x, i)) ∨
      (i ∉ s.map.freeList ∧ (∃! p, ∃ x, s.map.slot p = some (x, i)) ∧
        ∀ b k x, s.map.slot (b, k) = some (x, i) →
          x = hashPrimary hasher (s.map.entries i).first ∧
            (b = s.map.bucketOf x ∨ b = s.map.bucketOf (hashSecondary x))) := by
  have hinv := (cuckooOk_reachable h).inv
  by_cases hu : s.map.Used i
  · right
    refine ⟨fun hf => (hinv.mem_freeList.mp hf).2 hu, ?_, ?_⟩
    · obtain ⟨p, x, hp⟩ := hu
      refine ⟨p, ⟨x, hp⟩, ?_⟩
      rintro q ⟨y, hq⟩
      exact hinv.slot_unique hq hp
    · intro b k x hx
      have hg := hinv.placed.ok hx
      exact ⟨hg.hash, hg.bucket⟩
  · left
    exact ⟨List.count_eq_one_of_mem hinv.nodup (hinv.mem_freeList.mpr ⟨hi, hu⟩), hu⟩

theorem cuckoo_entries_small : smallState.map.freeList.count 0 = 1 := by
  rcases cuckoo_entries reachable_smallState 0 (by decide) with h | h
  · exact h.1
  · exact absurd (show 0 ∈ smallState.map.freeList by decide) h.1

end System
end Tasvir
