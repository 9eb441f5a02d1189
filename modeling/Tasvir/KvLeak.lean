import Mathlib.Tactic
import Tasvir.AllocSound
import Tasvir.KvReplica

/-! The storage of the key-value store over any number of updates: a key that exists already
keeps its entry and has its old value given back, but the new copy of the key stays allocated. -/
namespace Tasvir
open ByteMem Machine

/-- Calls of `update` on a new store; a NULL from `alloc_allocator` would be written through. -/
def updateSystem (hash : List ℕ → ℕ) (h : ℕ) : System KvState (List ℕ × List ℕ) where
  init s := ∃ n, KvState.Blank h n ∧ s = { node := { n with mem := kvInit n.mem h } }
  pre s a := FitsIn keySize a.1 ∧ FitsIn valueSize a.2 ∧
    s.node.mem.get (s.node.mem.get (kvData h+8)) ≠ 0 ∧
    s.node.mem.get (s.node.mem.get (kvData h+16)) ≠ 0
  next s a := s.next hash h (.update a.1 a.2)

namespace KvState

/-- The blocks in use of the allocator that the wrapper has at `field`. -/
def live (h : ℕ) (s : KvState) (field : ℕ) : ℕ :=
  liveBlocks s.node.mem.rw (s.node.mem.get (kvData h+field)) regionSize

/-- The keys that were written, each once. -/
def distinctKeys (s : KvState) : List (List ℕ) := (s.history.map Prod.fst).dedup

/-- The key, value and entry allocators have one block in use for each key. -/
def NoLeak (h : ℕ) (s : KvState) : Prop :=
  s.live h 8 = s.distinctKeys.length ∧ s.live h 16 = s.distinctKeys.length ∧
  s.live h 0 = s.distinctKeys.length

end KvState

/-- The store has the keys that were written, a chunk for every call and a value for every key. -/
structure LeakInv (hash : List ℕ → ℕ) (h : ℕ) (s : KvState) (ks : List (List ℕ)) (free : List ℕ)
    (nv : ℕ) : Prop where
  heap : KvHeap hash (kvData h) s.node.mem.rw ks s.history.length free nv
  keys : ∀ k, k ∈ ks ↔ k ∈ s.history.map Prod.fst
  vals : nv = free.length+ks.length

section
variable {hash : List ℕ → ℕ} {h : ℕ} {s : KvState} {ks : List (List ℕ)} {free : List ℕ} {nv : ℕ}

theorem LeakInv.perm (hs : LeakInv hash h s ks free nv) : ks.Perm s.distinctKeys := by
  apply (List.perm_ext_iff_of_nodup hs.heap.nodup (List.nodup_dedup _)).mpr
  intro k
  rw [List.mem_dedup]
  exact hs.keys k

theorem LeakInv.length_le (hs : LeakInv hash h s ks free nv) : ks.length ≤ s.history.length := by
  rw [hs.perm.length_eq]
  have hsub := (List.dedup_sublist (s.history.map Prod.fst)).length_le
  rwa [List.length_map] at hsub

theorem LeakInv.live (hD : StoreAt (kvData h)) (hs : LeakInv hash h s ks free nv) :
    s.live h 8 = s.history.length ∧ s.live h 16 = ks.length ∧ s.live h 0 = ks.length := by
  obtain ⟨fe, hentries⟩ := hs.heap.entries
  obtain ⟨fk, hkeys⟩ := hs.heap.keys
  obtain ⟨fv, hvals⟩ := hs.heap.vals
  have hcells := hs.heap.cells
  have h1 := hkeys.arena.liveBlocks (key_wf hD)
  have h2 := hvals.liveBlocks (val_wf hD)
  have h3 := hentries.arena.liveBlocks (entry_wf hD)
  have hcount := hs.vals
  simp only [KvState.live, NodeMem.get, Nat.add_zero]
  rw [hcells.keys, hcells.vals, hcells.entries]
  simp only [keyArena, valArena, entryArena, List.length_nil] at h1 h2 h3
  omega

/-- The entry allocator cannot be exhausted before the key allocator. -/
theorem LeakInv.entry_room (hs : LeakInv hash h s ks free nv) :
    s.node.mem.get (s.node.mem.get (kvData h)) ≠ 0 := by
  obtain ⟨fe, hentries⟩ := hs.heap.entries
  obtain ⟨fk, hkeys⟩ := hs.heap.keys
  have hR := regionSize_eq
  have hkfits := hkeys.fits
  have hle := hs.length_le
  have hbase : s.node.mem.get (kvData h) = (entryArena (kvData h)).base := hs.heap.cells.entries
  rw [hbase, NodeMem.get, Ne, hentries.arena.head_eq_zero]
  rintro ⟨-, hfull⟩
  have hlast := hentries.arena.last hfull
  rw [entry_chunk, entry_stop] at hlast
  omega

theorem LeakInv.update (hD : StoreAt (kvData h)) (hs : LeakInv hash h s ks free nv)
    {a : List ℕ × List ℕ} (hp : (updateSystem hash h).pre s a) :
    ∃ ks free nv, LeakInv hash h ((updateSystem hash h).next s a) ks free nv := by
  obtain ⟨hkey, hvalue, hpk, hpv⟩ := hp
  obtain ⟨free', nv', hheap, hcount, -⟩ := update_spec hD hs.heap hkey hvalue.1
    hs.entry_room hpk hpv
  generalize hm : kvUpdate hash s.node.mem (kvData h) a.1 a.2 = m' at hheap
  have hnext : (updateSystem hash h).next s a =
      { node := { s.node with mem := m' }, history := a :: s.history } := by
    simp only [updateSystem, KvState.next, hm]
  rw [hnext]
  refine ⟨_, free', nv', hheap, ?_, hcount hs.vals⟩
  intro k
  rw [List.map_cons, List.mem_cons, ← hs.keys]
  split_ifs with hin
  · constructor
    · exact Or.inr
    · rintro (rfl | hk)
      · exact hin
      · exact hk
  · rw [List.mem_append, List.mem_singleton, or_comm]

theorem LeakInv.reachable (hw : (kvArea h).Wf) (hs : (updateSystem hash h).Reachable s) :
    ∃ ks free nv, LeakInv hash h s ks free nv := by
  have hD := kvData_storeAt hw
  have hR := regionSize_eq
  refine hs.invariant (P := fun s => ∃ ks free nv, LeakInv hash h s ks free nv) ?_ ?_
  · rintro s ⟨n, hn, rfl⟩
    have hheap := kvInit_heap hash hD fun x h1 h2 => hn.rw x (kvData_payload h1 (by omega))
    exact ⟨[], [], 0, hheap, fun k => by simp, rfl⟩
  · rintro s a ⟨ks, free, nv, hinv⟩ hp
    exact hinv.update hD hp

/-- The blocks in use are the distinct keys exactly when no key is written twice. -/
theorem LeakInv.noLeak_iff (hD : StoreAt (kvData h)) (hs : LeakInv hash h s ks free nv) :
    s.NoLeak h ↔ (s.history.map Prod.fst).Nodup := by
  obtain ⟨h1, h2, h3⟩ := hs.live hD
  have hlen := hs.perm.length_eq
  have hsub := List.dedup_sublist (s.history.map Prod.fst)
  unfold KvState.NoLeak
  rw [h1, h2, h3]
  constructor
  · rintro ⟨hk, -, -⟩
    have heq : (s.history.map Prod.fst).dedup = s.history.map Prod.fst := by
      apply hsub.eq_of_length
      rw [List.length_map]
      exact hk.symm
    exact List.dedup_eq_self.mp heq
  · intro hnodup
    have heq : s.distinctKeys = s.history.map Prod.fst := List.dedup_eq_self.mpr hnodup
    rw [heq, List.length_map] at hlen ⊢
    exact ⟨rfl, hlen, hlen⟩

/-- A store with few keys takes another. -/
theorem LeakInv.enabled (hs : LeakInv hash h s ks free nv)
    (hfew : s.history.length < 1000) {a : List ℕ × List ℕ} (hkey : FitsIn keySize a.1)
    (hvalue : FitsIn valueSize a.2) : (updateSystem hash h).pre s a := by
  obtain ⟨fk, hkeys⟩ := hs.heap.keys
  obtain ⟨fv, hvals⟩ := hs.heap.vals
  have hR := regionSize_eq
  have hle := hs.length_le
  have hcount := hs.vals
  have hk : s.node.mem.get (kvData h+8) = (keyArena (kvData h)).base := hs.heap.cells.keys
  have hv : s.node.mem.get (kvData h+16) = (valArena (kvData h)).base := hs.heap.cells.vals
  refine ⟨hkey, hvalue, ?_, ?_⟩
  · rw [hk, NodeMem.get, Ne, hkeys.arena.head_eq_zero]
    rintro ⟨-, hfull⟩
    have hlast := hkeys.arena.last hfull
    rw [key_chunk, key_stop] at hlast
    omega
  · rw [hv, NodeMem.get, Ne, hvals.head_eq_zero]
    rintro ⟨rfl, hfull⟩
    have hlast := hvals.last hfull
    rw [val_chunk, val_stop] at hlast
    rw [List.length_nil] at hcount
    omega

end

/-- Updates leak no storage exactly as long as no key is updated twice: the copy of a key that
exists already is never given back. -/
theorem no_leak_iff (hash : List ℕ → ℕ) {h : ℕ} (hw : (kvArea h).Wf) {s : KvState}
    (hs : (updateSystem hash h).Reachable s) :
    s.NoLeak h ↔ (s.history.map Prod.fst).Nodup := by
  obtain ⟨ks, free, nv, hinv⟩ := LeakInv.reachable hw hs
  exact hinv.noLeak_iff (kvData_storeAt hw)

theorem two_updates_reachable {h : ℕ} (hw : (kvArea h).Wf) (hash : List ℕ → ℕ) {n : OwnerNode}
    (hn : KvState.Blank h n) {a b : List ℕ × List ℕ} (ha : FitsIn keySize a.1)
    (ha' : FitsIn valueSize a.2) (hb : FitsIn keySize b.1) (hb' : FitsIn valueSize b.2) :
    ∃ s, (updateSystem hash h).Reachable s ∧ s.history = [b, a] := by
  have h0 : (updateSystem hash h).Reachable { node := { n with mem := kvInit n.mem h } } :=
    .init ⟨n, hn, rfl⟩
  -- the history of the next state, for any state
  have hnext (s : KvState) (c : List ℕ × List ℕ) :
      ((updateSystem hash h).next s c).history = c :: s.history := rfl
  generalize hs0 : ({ node := { n with mem := kvInit n.mem h } } : KvState) = s0 at h0
  have hist0 : s0.history = [] := by rw [← hs0]
  obtain ⟨ks, free, nv, inv0⟩ := LeakInv.reachable hw h0
  have h1 := h0.step (inv0.enabled (by rw [hist0]; norm_num) ha ha')
  have hist1 := hnext s0 a
  generalize (updateSystem hash h).next s0 a = s1 at h1 hist1
  rw [hist0] at hist1
  obtain ⟨ks, free, nv, inv1⟩ := LeakInv.reachable hw h1
  have h2 := h1.step (inv1.enabled (by rw [hist1]; norm_num) hb hb')
  refine ⟨_, h2, ?_⟩
  rw [hnext, hist1]

theorem fitsIn_singleton {n b : ℕ} (hn : 1 < n) (hb : 0 < b ∧ b < 256) : FitsIn n [b] :=
  ⟨hn, by simpa using hb⟩

theorem no_leak_iff_two :
    ∃ s, (updateSystem (fun _ => 0) 32768).Reachable s ∧
      s.history = [([98], [118]), ([97], [118])] ∧
      (s.NoLeak 32768 ↔ (s.history.map Prod.fst).Nodup) := by
  obtain ⟨s, hs, hist⟩ := two_updates_reachable kvArea_wf (fun _ => 0) blankNode_blank
    (a := ([97], [118])) (b := ([98], [118]))
    (fitsIn_singleton (by norm_num [keySize]) (by norm_num))
    (fitsIn_singleton (by norm_num [valueSize]) (by norm_num))
    (fitsIn_singleton (by norm_num [keySize]) (by norm_num))
    (fitsIn_singleton (by norm_num [valueSize]) (by norm_num))
  exact ⟨s, hs, hist, no_leak_iff _ kvArea_wf hs⟩

/-- The key `a` written twice takes two key blocks. -/
theorem rewritten_key_leaks :
    ∃ s, (updateSystem (fun _ => 0) 32768).Reachable s ∧
      s.history = [([97], [118]), ([97], [118])] ∧ ¬ s.NoLeak 32768 := by
  obtain ⟨s, hs, hist⟩ := two_updates_reachable kvArea_wf (fun _ => 0) blankNode_blank
    (a := ([97], [118])) (b := ([97], [118]))
    (fitsIn_singleton (by norm_num [keySize]) (by norm_num))
    (fitsIn_singleton (by norm_num [valueSize]) (by norm_num))
    (fitsIn_singleton (by norm_num [keySize]) (by norm_num))
    (fitsIn_singleton (by norm_num [valueSize]) (by norm_num))
  refine ⟨s, hs, hist, ?_⟩
  obtain ⟨ks, free, nv, hinv⟩ := LeakInv.reachable kvArea_wf hs
  rw [hinv.noLeak_iff (kvData_storeAt kvArea_wf), hist]
  decide

end Tasvir
