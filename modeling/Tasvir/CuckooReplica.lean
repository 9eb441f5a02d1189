import Mathlib.Tactic
import Tasvir.CuckooRun

/-! The table on a replica: `Remove` does not mark the bucket it changes, so a replica keeps
hash values of removed keys. Look-ups there go by the keys of the entries, which are marked. -/
namespace Tasvir
open Machine

namespace CuckooMap
variable {K V : Type} [EntryWord K V] {m m' r r' : CuckooMap K V}

/-- What a sync makes of the replica `r`: all bytes that are marked are those of the owner, and
any other byte may be too, with the rest of its line. No cell of the buckets lies across lines. -/
structure Refreshed (m r r' : CuckooMap K V) : Prop where
  marks : r'.marks = []
  all : .all ∈ m.marks → r'.bucketMask = m.bucketMask ∧ r'.allocNumEntries = m.allocNumEntries ∧
    r'.buckets = m.buckets ∧ r'.entries = m.entries
  mask : r'.bucketMask = r.bucketMask ∨ r'.bucketMask = m.bucketMask
  allocNumEntries : r'.allocNumEntries = r.allocNumEntries ∨ r'.allocNumEntries = m.allocNumEntries
  bucket : ∀ {b}, .bucket b ∈ m.marks → r'.buckets b = m.buckets b
  hashValues : ∀ b k, (r'.buckets b).hashValues k = (r.buckets b).hashValues k ∨
    (r'.buckets b).hashValues k = (m.buckets b).hashValues k
  entryIndices : ∀ b k, (r'.buckets b).entryIndices k = (r.buckets b).entryIndices k ∨
    (r'.buckets b).entryIndices k = (m.buckets b).entryIndices k
  entry : ∀ {i}, .entry i ∈ m.marks → r'.entries i = m.entries i
  same : ∀ {i}, m.entries i = r.entries i → r'.entries i = m.entries i
  word : .stck m.allocNumEntries ∈ m.marks → (∃ w, m.entries 0 = EntryWord.setWord (r.entries 0) w) →
    r'.entries 0 = m.entries 0

/-- The replica after a sync: as the owner's table, but for hash values of empty slots. -/
structure Agrees (m r : CuckooMap K V) : Prop where
  mask : r.bucketMask = m.bucketMask
  allocNumEntries : r.allocNumEntries = m.allocNumEntries
  entries : r.entries = m.entries
  entryIndices : ∀ b k, (r.buckets b).entryIndices k = (m.buckets b).entryIndices k
  hashValues : ∀ b k, (r.buckets b).hashValues k = (m.buckets b).hashValues k ∨
    (m.buckets b).hashValues k = 0

/-- A sync brings what the marks cover, whatever else it brings. -/
theorem Refreshed.agrees (h : Refreshed m r r') (hl : .all ∈ m.marks ∨ Logged r m) : Agrees m r' := by
  rcases hl with hall | hl
  · obtain ⟨h1, h2, h3, h4⟩ := h.all hall
    exact ⟨h1, h2, h4, fun b k => by rw [h3], fun b k => .inl (by rw [h3])⟩
  · have halloc : r'.allocNumEntries = m.allocNumEntries := by
      rcases h.allocNumEntries with h' | h'
      · rw [h', hl.allocNumEntries]
      · exact h'
    refine ⟨?_, halloc, ?_, ?_, ?_⟩
    · rcases h.mask with h' | h'
      · rw [h', hl.mask]
      · exact h'
    · funext j
      rcases hl.entry j with he | he | ⟨rfl, hs, w, hw⟩
      · exact h.entry he
      · exact h.same he
      · rw [← hl.allocNumEntries] at hs
        exact h.word hs ⟨w, hw⟩
    · intro b k
      rcases hl.bucket b with hb | ⟨hi, -⟩
      · rw [h.bucket hb]
      · rcases h.entryIndices b k with h' | h'
        · rw [h', hi]
        · exact h'
    · intro b k
      rcases hl.bucket b with hb | ⟨-, hh⟩
      · rw [h.bucket hb]
        exact .inl rfl
      · rcases h.hashValues b k with h' | h'
        · rw [h']
          exact (hh k).imp_left Eq.symm
        · exact .inl h'

/-- The marks are dropped with the sync. -/
theorem Agrees.logged (h : Agrees m r) (hr : r.marks = []) : Logged r { m with marks := [] } := by
  refine ⟨h.mask.symm, h.allocNumEntries.symm, ?_, ?_, ?_⟩
  · rw [hr]
    exact List.Subset.refl _
  · intro b
    refine .inr ⟨funext fun k => (h.entryIndices b k).symm, ?_⟩
    intro k
    exact (h.hashValues b k).imp_left Eq.symm
  · intro j
    exact .inr (.inl (congrFun h.entries j).symm)

section Find
variable [Zero K] [Zero V] [DecidableEq K] {hasher : K → BitVec 64}

/-- The keys that a free entry can have: zero, and numbers of entries over the first word. -/
def BlankKey (V : Type) [EntryWord K V] [Zero V] (n : ℕ) (key : K) : Prop :=
  ∃ e : Entry K V, Blank n e ∧ e.first = key

/-- A slot of the replica with the right hash value and key leads to an entry in use. -/
theorem Agrees.used (h : Agrees m r) (hinv : Inv hasher m) {x : HashResult} {b i : ℕ} {key : K}
    (hkey : ¬BlankKey V m.allocNumEntries key) (hf : r.getFromBucket x b key = some i) :
    m.Used i ∧ (m.entries i).first = key := by
  obtain ⟨s, hs, rfl⟩ := Option.map_eq_some_iff.mp hf
  obtain ⟨-, hk⟩ := findSlot_some hs
  rw [h.entries, h.entryIndices] at hk
  rw [h.entryIndices]
  refine ⟨?_, hk⟩
  by_contra hu
  exact hkey ⟨_, hinv.blank (hinv.indices b s) hu, hk⟩

theorem Agrees.findWithHash (h : Agrees m r) (hinv : Inv hasher m) {key : K}
    (hkey : ¬BlankKey V m.allocNumEntries key) :
    r.findWithHash (hashPrimary hasher key) key = m.findWithHash (hashPrimary hasher key) key := by
  have hb (x : HashResult) : r.bucketOf x = m.bucketOf x := by
    rw [bucketOf, bucketOf, h.mask]
  have hsound {i : ℕ} (hf : r.findWithHash (hashPrimary hasher key) key = some i) :
      m.Used i ∧ (m.entries i).first = key := by
    unfold CuckooMap.findWithHash at hf
    split at hf
    next j hj =>
      cases hf
      exact h.used hinv hkey hj
    next => exact h.used hinv hkey hf
  cases hm : m.findWithHash (hashPrimary hasher key) key with
  | none =>
    apply Option.eq_none_iff_forall_not_mem.mpr
    intro i hi
    rw [hinv.findWithHash_iff.mpr (hsound hi)] at hm
    cases hm
  | some i =>
    obtain ⟨⟨⟨b, k⟩, x, hs⟩, hk⟩ := hinv.findWithHash_iff.mp hm
    have hxk : x = hashPrimary hasher key := by rw [hinv.slot_hash hs, hk]
    subst hxk
    obtain ⟨hx, h1, h2⟩ := slot_some.mp hs
    -- a hash value of the owner that is not zero is there on the replica
    have hr1 : (r.buckets b).hashValues k = hashPrimary hasher key := by
      rcases h.hashValues b k with h' | h'
      · rw [h']
        exact h1
      · exact absurd (h1.symm.trans h') hx
    have hfound : r.getFromBucket (hashPrimary hasher key) b key ≠ none := by
      intro hn
      have hn' := Option.map_eq_none_iff.mp hn
      have := List.find?_eq_none.mp hn' k (List.mem_finRange k)
      simp only [hr1, h.entryIndices, h.entries, h2, hk] at this
      simp at this
    have hrfound : r.findWithHash (hashPrimary hasher key) key ≠ none := by
      unfold CuckooMap.findWithHash
      split
      next => exact Option.some_ne_none _
      next hnone =>
        rcases (hinv.placed.ok hs).bucket with hb' | hb'
        · simp only at hb'
          rw [hb, ← hb'] at hnone
          exact absurd hnone hfound
        · simp only [home] at hb'
          rw [hb, ← hb']
          exact hfound
    obtain ⟨j, hj⟩ := Option.ne_none_iff_exists'.mp hrfound
    obtain ⟨hu, hkj⟩ := hsound hj
    rw [hj, hinv.keys hu ⟨_, _, hs⟩ (by rw [hkj, hk])]

end Find
end CuckooMap

section System
variable {K V : Type} [EntryWord K V] [Zero K] [Zero V] [DecidableEq K]

/-- The owner's table, a replica, and the map at the last sync. -/
structure CuckooNode (K V : Type) where
  owner : CuckooState K V
  replica : CuckooMap K V
  published : Option (K → Option V)

inductive NodeOp (K V : Type)
  | call (a : CuckooOp K V)
  | sync (r : CuckooMap K V)

/-- The owner's calls and syncs between them, in any order; before the first sync the replica
has any contents. -/
def cuckooNodeSystem (hasher : K → BitVec 64) : System (CuckooNode K V) (NodeOp K V) where
  init s := (cuckooSystem hasher).init s.owner ∧ s.published = none
  pre s a := match a with
    | .call a => (cuckooSystem hasher).pre s.owner a
    | .sync r => CuckooMap.Refreshed s.owner.map s.replica r
  next s a := match a with
    | .call a => { s with owner := (cuckooSystem hasher).next s.owner a }
    | .sync r => ⟨{ s.owner with map := { s.owner.map with marks := [] } }, r, some s.owner.spec⟩

variable {hasher : K → BitVec 64}

/-- What a call changes is marked, or everything is. -/
theorem CuckooOk.logged {s : CuckooState K V} (h : CuckooOk hasher s) {a : CuckooOp K V}
    (hp : (cuckooSystem hasher).pre s a) :
    .all ∈ ((cuckooSystem hasher).next s a).map.marks ∨
      CuckooMap.Logged s.map ((cuckooSystem hasher).next s a).map := by
  cases a with
  | insert key value =>
    right
    obtain ⟨r, m', hr, -, hl, -⟩ := h.inv.insert value hp (Nat.lt_succ_self _)
    simp only [cuckooSystem, hr]
    cases r with
    | none => exact hl
    | some i => exact hl
  | remove key =>
    right
    simp only [cuckooSystem]
    rcases h.inv.remove key with ⟨hr, -⟩ | ⟨-, i, -, hrem⟩
    · rw [hr]
      exact (CuckooMap.Rearranged.refl s.map).logged
    · exact hrem.logged
  | clear =>
    left
    simp [cuckooSystem, CuckooMap.clear, CuckooMap.mark]

omit [DecidableEq K] in
theorem CuckooOk.unmark {s : CuckooState K V} (h : CuckooOk hasher s) :
    CuckooOk hasher { s with map := { s.map with marks := [] } } := by
  have hi := h.inv
  refine ⟨⟨hi.masked, hi.size, hi.pos, hi.bound, ⟨?_, hi.placed.inj⟩, hi.indices, hi.keys,
    hi.secondary, hi.nodup, hi.mem_freeList, hi.count, hi.blank⟩, h.holds⟩
  intro p e hp
  have hg := hi.placed.ok hp
  exact ⟨hg.hash, hg.index, hg.bucket⟩

structure CuckooNodeOk (hasher : K → BitVec 64) (s : CuckooNode K V) : Prop where
  ok : CuckooOk hasher s.owner
  logged : .all ∈ s.owner.map.marks ∨ CuckooMap.Logged s.replica s.owner.map
  view : ∀ g, s.published = some g → ∀ key, ¬CuckooMap.BlankKey V s.replica.allocNumEntries key →
    s.replica.find hasher key = (g key).map (fun value => ⟨key, value⟩)

theorem CuckooNodeOk.sync {s : CuckooNode K V} (h : CuckooNodeOk hasher s) {r : CuckooMap K V}
    (hr : CuckooMap.Refreshed s.owner.map s.replica r) :
    CuckooNodeOk hasher ((cuckooNodeSystem hasher).next s (.sync r)) := by
  have hagree := hr.agrees h.logged
  refine ⟨h.ok.unmark, .inr (hagree.logged hr.marks), ?_⟩
  intro g hg key hkey
  have hg' : s.owner.spec = g := Option.some.inj hg
  change r.find hasher key = _
  change ¬CuckooMap.BlankKey V r.allocNumEntries key at hkey
  rw [hagree.allocNumEntries] at hkey
  rw [CuckooMap.find, hagree.findWithHash h.ok.inv hkey, hagree.entries, ← hg']
  exact h.ok.find key

theorem cuckooNodeOk_reachable {s : CuckooNode K V} (h : (cuckooNodeSystem hasher).Reachable s) :
    CuckooNodeOk hasher s := by
  refine h.invariant ?_ ?_
  · rintro s ⟨hinit, hpub⟩
    refine ⟨cuckooOk_init hinit, .inl ?_, ?_⟩
    · obtain ⟨⟨m, sizeofEntry, area, entries, buckets, -, hc⟩, -⟩ := hinit
      unfold CuckooMap.create at hc
      split at hc
      · cases hc
      · split at hc
        · cases hc
        · rw [← Option.some.inj hc]
          simp [CuckooMap.clear, CuckooMap.mark]
    · intro g hg
      rw [hpub] at hg
      cases hg
  · intro s a hs hp
    cases a with
    | call a =>
      refine ⟨hs.ok.step hp, ?_, hs.view⟩
      rcases hs.ok.logged hp with hall | hl
      · exact .inl hall
      · rcases hs.logged with hall | hl'
        · exact .inl (hl.marks hall)
        · exact .inr (hl'.trans hl)
    | sync r => exact hs.sync hp

/-- In every run a replica finds a key with its value at the last sync, and no key that was not
there, except for the keys that a free entry can have. -/
theorem cuckoo_replica_find {s : CuckooNode K V} (h : (cuckooNodeSystem hasher).Reachable s)
    {g : K → Option V} (hg : s.published = some g) {key : K}
    (hkey : ¬CuckooMap.BlankKey V s.replica.allocNumEntries key) :
    s.replica.find hasher key = (g key).map (fun value => ⟨key, value⟩) :=
  (cuckooNodeOk_reachable h).view g hg key hkey

theorem cuckoo_replica_find_small :
    ∃ (s : CuckooNode (BitVec 64) (BitVec 64)) (g : BitVec 64 → Option (BitVec 64)),
      (cuckooNodeSystem id).Reachable s ∧ s.published = some g ∧
        ¬CuckooMap.BlankKey (BitVec 64) s.replica.allocNumEntries (5 : BitVec 64) ∧
        s.replica.find id 5 = some ⟨5, 7⟩ := by
  have hinit : (cuckooSystem id).init (⟨smallTable, fun _ => none⟩ : CuckooState _ _) :=
    ⟨⟨⟨0, 0, 2, 4, ⟨0, 4, fun _ => 0⟩, fun _ => ⟨fun _ => 0, fun _ => 0⟩, fun _ => ⟨0, 0⟩, []⟩,
      16, 216, 4, 2, by norm_num, rfl⟩, rfl⟩
  have h0 : (cuckooNodeSystem id).Reachable
      (⟨⟨smallTable, fun _ => none⟩, smallTable, none⟩ : CuckooNode _ _) := .init ⟨hinit, rfl⟩
  have hsec : hashSecondary (hashPrimary id (5 : BitVec 64)) ≠ 0 := by decide
  have hpre : (cuckooNodeSystem id).pre (⟨⟨smallTable, fun _ => none⟩, smallTable, none⟩ :
    CuckooNode (BitVec 64) (BitVec 64)) (.call (.insert 5 7)) := hsec
  have h1 := h0.step hpre
  set s := (cuckooNodeSystem id).next (⟨⟨smallTable, fun _ => none⟩, smallTable, none⟩ :
    CuckooNode (BitVec 64) (BitVec 64)) (.call (.insert 5 7)) with hs
  have href : (cuckooNodeSystem id).pre s (.sync { s.owner.map with marks := [] }) :=
    ⟨rfl, fun _ => ⟨rfl, rfl, rfl, rfl⟩, .inr rfl, .inr rfl, fun _ => rfl, fun _ _ => .inr rfl,
      fun _ _ => .inr rfl, fun _ => rfl, fun _ => rfl, fun _ _ => rfl⟩
  have h2 := h1.step href
  have hblank : ¬CuckooMap.BlankKey (BitVec 64) 4 (5 : BitVec 64) := by
    rintro ⟨e, rfl | ⟨w, hw, rfl⟩, he⟩
    · exact absurd he (by decide)
    · interval_cases w <;> exact absurd he (by decide)
  refine ⟨_, _, h2, rfl, hblank, ?_⟩
  rw [cuckoo_replica_find h2 rfl hblank]
  decide

end System
end Tasvir
