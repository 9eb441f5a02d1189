import Mathlib.Tactic
import Tasvir.KvAlloc
import Tasvir.Machine

/-! Runs of the allocator: calls of `alloc_allocator` and `free_allocator` in any order, with
writes of the callers to their blocks in between. -/
namespace Tasvir
open ByteMem Machine

/-- The nodes of the free list from pointer `p` on. -/
def FreeList (m : Mem) : List ℕ → ℕ → Prop
  | [], p => p = 0
  | q :: qs, p => p = q ∧ q ≠ 0 ∧ FreeList m qs (get64 m q)

/-- The blocks that the free list can still give. -/
def freeBlocks (m : Mem) (size : ℕ) : ℕ → ℕ → ℕ
  | 0, _ => 0
  | n+1, p => if p = 0 then 0 else get64 m (p+8)/size+freeBlocks m size n (get64 m p)

/-- The blocks in use of an allocator with `len` bytes: all that fit but the free ones. -/
def liveBlocks (m : Mem) (allocator len : ℕ) : ℕ :=
  let size := get64 m (allocator+16)
  (len-sizeofAllocator)/size-freeBlocks m size len (get64 m allocator)

/-- The memory and the blocks that were handed out and not freed. -/
structure BlockState where
  mem : Mem
  live : List ℕ := []

inductive BlockAct
  | alloc
  | free (block : ℕ)
  /-- the owner of a block writes to it -/
  | write (a : ℕ) (bytes : List ℕ)

/-- The length of a block. -/
def blockSize (objLen : ℕ) : ℕ := max objLen sizeofFreeNode

namespace BlockState

def pre (size : ℕ) (s : BlockState) : BlockAct → Prop
  | .alloc => True
  | .free block => block ∈ s.live
  | .write a bytes => ∃ block ∈ s.live, block ≤ a ∧ a+bytes.length ≤ block+size

def next (space : ℕ) (s : BlockState) : BlockAct → BlockState
  | .alloc =>
    let r := allocAllocator s.mem space
    { mem := r.2, live := if r.1 = 0 then s.live else r.1 :: s.live }
  | .free block => { mem := freeAllocator s.mem space block, live := s.live.erase block }
  | .write a bytes => { s with mem := store s.mem a bytes }

/-- The blocks are apart and inside of the space, the free list has none of them and no node
twice, and nothing is lost. -/
structure Sound (space len size : ℕ) (s : BlockState) : Prop where
  apart : s.live.Pairwise fun p q => p+size ≤ q ∨ q+size ≤ p
  inside : ∀ p ∈ s.live, space+sizeofAllocator ≤ p ∧ p+size ≤ space+len
  list : ∃ l, FreeList s.mem l (get64 s.mem space) ∧ l.Nodup ∧
    ∀ p ∈ l, ∀ q ∈ s.live, p+sizeofFreeNode ≤ q ∨ q+size ≤ p
  exhausted : (allocAllocator s.mem space).1 = 0 ↔
    s.live.length = (len-sizeofAllocator)/size

end BlockState

/-- From an `init_allocator` on any memory. -/
def blockSystem (space len objLen : ℕ) : System BlockState BlockAct where
  init s := ∃ m, s = { mem := (initAllocator m space len objLen).2 }
  pre := BlockState.pre (blockSize objLen)
  next := BlockState.next space

section
variable {A : Arena} {m : Mem} {free : List ℕ} {b : ℕ} {full : Bool}

theorem chunk_injective (hA : A.Wf) : Function.Injective A.chunk := by
  intro c c' h
  by_contra hne
  have h1 := chunk_apart A hne
  have h2 := hA.size_le
  simp only [sizeofFreeNode] at h2
  omega

/-- The nodes of the list. -/
theorem Arena.Linked.freeList {p : ℕ} (h : A.Linked m b full free p) :
    FreeList m (free.map A.chunk ++ if full then [] else [A.chunk b]) p := by
  have hne (c : ℕ) : A.chunk c ≠ 0 := by
    have h1 := base_lt_chunk A c
    omega
  induction free generalizing p with
  | nil =>
    cases full with
    | true => exact h
    | false =>
      obtain ⟨rfl, h1, -⟩ := h
      exact ⟨rfl, hne b, h1⟩
  | cons c cs ih =>
    obtain ⟨rfl, -, h2⟩ := h
    exact ⟨rfl, hne c, ih h2⟩

theorem Arena.Inv.nodes_nodup (hA : A.Wf) (h : A.Inv m free b full) :
    (free.map A.chunk ++ if full then [] else [A.chunk b]).Nodup := by
  have hfree : (free.map A.chunk).Nodup := h.nodup.map (chunk_injective hA)
  cases full with
  | true => simpa using hfree
  | false =>
    apply hfree.append (List.nodup_singleton _)
    intro p hp hb
    obtain ⟨c, hc, rfl⟩ := List.mem_map.mp hp
    have heq := chunk_injective hA (List.mem_singleton.mp hb)
    exact absurd (h.below c hc) (by omega)

/-- Only an empty list has no block to give. -/
theorem Arena.Inv.head_eq_zero (h : A.Inv m free b full) :
    get64 m A.base = 0 ↔ free = [] ∧ full = true := by
  have hne (c : ℕ) : A.chunk c ≠ 0 := by
    have h1 := base_lt_chunk A c
    omega
  have hlinked := h.linked
  cases free with
  | nil =>
    cases full with
    | true => exact ⟨fun _ => ⟨rfl, rfl⟩, fun _ => hlinked⟩
    | false =>
      rw [hlinked.1]
      exact ⟨fun h0 => absurd h0 (hne b), fun h0 => absurd h0.2 Bool.false_ne_true⟩
  | cons c cs =>
    rw [hlinked.1]
    exact ⟨fun h0 => absurd h0 (hne c), fun h0 => absurd h0.1 (List.cons_ne_nil _ _)⟩

/-- The number of chunks in the space. -/
theorem Arena.Inv.capacity (hA : A.Wf) (h : A.Inv m free b full) :
    b ≤ (A.len-24)/A.size ∧ (full = true ↔ b = (A.len-24)/A.size) := by
  have hsize := hA.size_le
  have hstop : A.stop = A.base+A.len := rfl
  have hfits := h.fits
  have hroom := h.room
  have hlast := h.last
  simp only [sizeofFreeNode] at hsize
  simp only [Arena.chunk, sizeofAllocator, hstop] at hfits hroom hlast
  have hle (k : ℕ) : k ≤ (A.len-24)/A.size ↔ A.size*k ≤ A.len-24 := by
    rw [Nat.le_div_iff_mul_le (by omega), Nat.mul_comm]
  have hb : b ≤ (A.len-24)/A.size := (hle b).mpr (by omega)
  refine ⟨hb, ?_⟩
  have hnext := hle (b+1)
  cases full with
  | true =>
    have := hlast rfl
    refine ⟨fun _ => ?_, fun _ => rfl⟩
    have hnot : ¬ b+1 ≤ (A.len-24)/A.size := by
      rw [hnext]
      omega
    omega
  | false =>
    have := hroom rfl
    refine ⟨fun hf => absurd hf Bool.false_ne_true, fun heq => ?_⟩
    have hyes : b+1 ≤ (A.len-24)/A.size := by
      rw [hnext]
      omega
    omega

theorem Arena.Linked.freeBlocks (hA : A.Wf) {p : ℕ} (h : A.Linked m b full free p) (fuel : ℕ)
    (hfuel : free.length+1 < fuel) :
    Tasvir.freeBlocks m A.size fuel p =
      free.length+if full then 0 else (A.stop-A.chunk b)/A.size := by
  have hsize := hA.size_le
  simp only [sizeofFreeNode] at hsize
  have hne (c : ℕ) : A.chunk c ≠ 0 := by
    have h1 := base_lt_chunk A c
    omega
  induction free generalizing p fuel with
  | nil =>
    obtain ⟨fuel, rfl⟩ : ∃ k, fuel = k+2 := ⟨fuel-2, by simp at hfuel; omega⟩
    cases full with
    | true =>
      have h0 : p = 0 := h
      rw [Tasvir.freeBlocks, if_pos h0]
      rfl
    | false =>
      obtain ⟨rfl, h1, h2⟩ := h
      rw [Tasvir.freeBlocks, if_neg (hne b), h1, h2, Tasvir.freeBlocks, if_pos rfl]
      simp
  | cons c cs ih =>
    rw [List.length_cons] at hfuel
    obtain ⟨fuel, rfl⟩ : ∃ k, fuel = k+1 := ⟨fuel-1, by omega⟩
    obtain ⟨rfl, h1, h2⟩ := h
    rw [Tasvir.freeBlocks, if_neg (hne c), h1, Nat.div_self (by omega), ih h2 fuel (by omega),
      List.length_cons]
    omega

/-- The blocks in use are those taken and not given back. -/
theorem Arena.Inv.liveBlocks (hA : A.Wf) (h : A.Inv m free b full) :
    Tasvir.liveBlocks m A.base A.len+free.length = b := by
  have hsize := hA.size_le
  simp only [sizeofFreeNode] at hsize
  obtain ⟨hcap, hfull⟩ := h.capacity hA
  have hfree := length_le_of_lt h.nodup h.below
  have hstop : A.stop = A.base+A.len := rfl
  have hfits := h.fits
  simp only [Arena.chunk, sizeofAllocator, hstop] at hfits
  have hsmall : 16*b ≤ A.size*b := Nat.mul_le_mul_right b hsize
  have hlen : free.length+1 < A.len := by omega
  have hblocks := h.linked.freeBlocks hA A.len hlen
  unfold Tasvir.liveBlocks
  simp only [h.size, sizeofAllocator]
  rw [hblocks]
  cases full with
  | true =>
    have hb := hfull.mp rfl
    simp only [↓reduceIte]
    omega
  | false =>
    have hrest : (A.stop-A.chunk b)/A.size = (A.len-24)/A.size-b := by
      rw [← Nat.sub_mul_div]
      congr 1
      simp only [hstop, Arena.chunk, sizeofAllocator]
      omega
    rw [hrest]
    simp only [Bool.false_eq_true, ↓reduceIte]
    omega

end

/-- The live blocks are chunks in use, and all of these. -/
structure BlockInv (A : Arena) (s : BlockState) (free : List ℕ) (b : ℕ) (full : Bool)
    (cs : List ℕ) : Prop where
  arena : A.Inv s.mem free b full
  live : s.live = cs.map A.chunk
  nodup : cs.Nodup
  used : ∀ c ∈ cs, Arena.Used free b c
  count : b = free.length+cs.length

section
variable {A : Arena} {s : BlockState} {free cs : List ℕ} {b : ℕ} {full : Bool}

/-- `alloc_allocator` returns NULL exactly when the list is empty. -/
theorem alloc_eq_zero (m : Mem) (a : ℕ) : (allocAllocator m a).1 = 0 ↔ get64 m a = 0 := by
  unfold allocAllocator
  simp only
  split_ifs with h0
  · exact ⟨fun _ => h0, fun _ => rfl⟩
  · exact Iff.rfl
  · exact Iff.rfl

theorem BlockInv.alloc (hA : A.Wf) (h : BlockInv A s free b full cs) :
    ∃ free b full cs, BlockInv A (s.next A.base .alloc) free b full cs := by
  by_cases h0 : get64 s.mem A.base = 0
  · have heq : s.next A.base .alloc = s := by
      simp only [BlockState.next, allocAllocator, if_pos h0, ↓reduceIte]
    rw [heq]
    exact ⟨free, b, full, cs, h⟩
  · obtain ⟨c, free', b', full', hr, hinv, hal⟩ := alloc_spec hA h.arena h0
    have hne : (allocAllocator s.mem A.base).1 ≠ 0 := fun he => h0 ((alloc_eq_zero _ _).mp he)
    have hfresh : c ∉ cs := fun hc => (hal.stays c (h.used c hc)).1 rfl
    have hmem : (s.next A.base .alloc).mem = (allocAllocator s.mem A.base).2 := by
      simp only [BlockState.next]
    refine ⟨free', b', full', c :: cs, by rwa [hmem], ?_, List.nodup_cons.mpr ⟨hfresh, h.nodup⟩, ?_, ?_⟩
    · rw [hr] at hne
      simp only [BlockState.next, hr, if_neg hne, h.live, List.map_cons]
    · intro c' hc'
      rcases List.mem_cons.mp hc' with rfl | hc'
      · exact hal.used
      · exact (hal.stays c' (h.used c' hc')).2
    · have hcount := hal.count
      have hold := h.count
      rw [List.length_cons]
      omega

theorem BlockInv.release (hA : A.Wf) (h : BlockInv A s free b full cs) {block : ℕ}
    (hp : block ∈ s.live) :
    ∃ free b full cs, BlockInv A (s.next A.base (.free block)) free b full cs := by
  rw [h.live] at hp
  obtain ⟨c, hc, rfl⟩ := List.mem_map.mp hp
  have hinv := (free_spec hA h.arena (h.used c hc)).1
  have hmem : (s.next A.base (.free (A.chunk c))).mem = freeAllocator s.mem A.base (A.chunk c) := by
    simp only [BlockState.next]
  refine ⟨c :: free, b, full, cs.erase c, by rwa [hmem], ?_, h.nodup.erase c, ?_, ?_⟩
  · simp only [BlockState.next, h.live]
    rw [List.map_erase (chunk_injective hA)]
  · intro c' hc'
    obtain ⟨hne, hin⟩ := (h.nodup.mem_erase_iff).mp hc'
    have hused := h.used c' hin
    refine ⟨hused.1, ?_⟩
    intro hm
    rcases List.mem_cons.mp hm with hm | hm
    · exact hne hm
    · exact hused.2 hm
  · have hlen := List.length_erase_of_mem hc
    have hpos := List.length_pos_of_mem hc
    have hold := h.count
    rw [List.length_cons, hlen]
    omega

theorem BlockInv.write (hA : A.Wf) (h : BlockInv A s free b full cs) {a : ℕ} {bytes : List ℕ}
    (hp : ∃ block ∈ s.live, block ≤ a ∧ a+bytes.length ≤ block+A.size) :
    BlockInv A (s.next A.base (.write a bytes)) free b full cs := by
  obtain ⟨block, hin, h1, h2⟩ := hp
  rw [h.live] at hin
  obtain ⟨c, hc, rfl⟩ := List.mem_map.mp hin
  exact ⟨h.arena.fill hA (h.used c hc) h1 h2, h.live, h.nodup, h.used, h.count⟩

/-- The count of the blocks in use is that of a run. -/
theorem BlockInv.liveBlocks (hA : A.Wf) (h : BlockInv A s free b full cs) :
    Tasvir.liveBlocks s.mem A.base A.len = s.live.length := by
  have hblocks := h.arena.liveBlocks hA
  have hcount := h.count
  rw [h.live, List.length_map]
  omega

theorem BlockInv.sound (hA : A.Wf) (h : BlockInv A s free b full cs) :
    s.Sound A.base A.len A.size := by
  have hsize := hA.size_le
  simp only [sizeofFreeNode] at hsize
  have hcap := h.arena.capacity hA
  have hcount := h.count
  have hlive (q : ℕ) (hq : q ∈ s.live) : ∃ c, Arena.Used free b c ∧ q = A.chunk c := by
    rw [h.live] at hq
    obtain ⟨c, hc, rfl⟩ := List.mem_map.mp hq
    exact ⟨c, h.used c hc, rfl⟩
  refine ⟨?_, ?_, ⟨_, h.arena.linked.freeList, h.arena.nodes_nodup hA, ?_⟩, ?_⟩
  · rw [h.live, List.pairwise_map]
    exact h.nodup.imp fun hne => chunk_apart A hne
  · intro p hp
    obtain ⟨c, hc, rfl⟩ := hlive p hp
    have h1 := base_lt_chunk A c
    have h2 := chunk_le A hc.1
    have h3 := h.arena.fits
    have h4 : A.stop = A.base+A.len := rfl
    simp only [sizeofAllocator]
    omega
  · -- a node is a chunk that was given back or has never been taken
    intro p hp q hq
    obtain ⟨c, hc, rfl⟩ := hlive q hq
    have hnode : ∃ c', c' ≠ c ∧ p = A.chunk c' := by
      rcases List.mem_append.mp hp with hp | hp
      · obtain ⟨c', hc', rfl⟩ := List.mem_map.mp hp
        refine ⟨c', ?_, rfl⟩
        rintro rfl
        exact hc.2 hc'
      · cases full with
        | true => exact absurd hp List.not_mem_nil
        | false =>
          refine ⟨b, ?_, List.mem_singleton.mp hp⟩
          have := hc.1
          omega
    obtain ⟨c', hne, rfl⟩ := hnode
    have := chunk_apart A hne
    simp only [sizeofFreeNode]
    omega
  · rw [alloc_eq_zero, h.arena.head_eq_zero, h.live, List.length_map, sizeofAllocator, hcap.2]
    constructor
    · rintro ⟨rfl, hb⟩
      rw [List.length_nil] at hcount
      omega
    · intro hlen
      have hzero : free.length = 0 := by omega
      exact ⟨List.length_eq_zero_iff.mp hzero, by omega⟩

end

section
variable {space len objLen : ℕ}

theorem blockSize_eq (objLen : ℕ) :
    blockSize objLen = if objLen > sizeofFreeNode then objLen else sizeofFreeNode := by
  rw [blockSize, max_def]
  split_ifs <;> omega

/-- What `init_allocator` checks, in 64 bits. -/
theorem init_accepts {m : Mem} (h : (initAllocator m space len objLen).1 ≠ 0) :
    space ≠ 0 ∧ (sizeofAllocator+blockSize objLen)%2^64 ≤ len := by
  simp only [initAllocator, ← blockSize_eq] at h
  split_ifs at h with hlen
  · exact absurd rfl h
  · exact ⟨h, by omega⟩

/-- The first block begins after the header, however long it is. -/
theorem first_block {m : Mem} (hspace : space+sizeofAllocator < 2^64)
    (h : (initAllocator m space len objLen).1 ≠ 0) :
    (allocAllocator (initAllocator m space len objLen).2 space).1 = space+sizeofAllocator := by
  have hhead : get64 (initAllocator m space len objLen).2 space = space+sizeofAllocator := by
    simp only [sizeofAllocator] at hspace
    simp only [initAllocator, ← blockSize_eq, sizeofAllocator] at h ⊢
    split_ifs at h ⊢ with hlen
    · exact absurd rfl h
    · rw [get64_set64_ne _ _ (by omega), get64_set64_ne _ _ (by omega),
        get64_set64 _ _ (by omega)]
  have hne : get64 (initAllocator m space len objLen).2 space ≠ 0 := by
    rw [hhead, sizeofAllocator]
    omega
  unfold allocAllocator
  simp only [if_neg hne]
  split_ifs <;> exact hhead

/-- The block that is accepted when the sum in `init_allocator` wraps. -/
theorem wrapped_unsound {m : Mem} (hend : space+len ≤ 2^63)
    (hacc : (initAllocator m space len objLen).1 ≠ 0) (hwrap : 2^64 ≤ sizeofAllocator+objLen) :
    ∃ s, (blockSystem space len objLen).Reachable s ∧
      ¬ s.Sound space len (blockSize objLen) := by
  have hblock : objLen ≤ blockSize objLen := le_max_left _ _
  simp only [sizeofAllocator] at hwrap
  have hfirst := first_block (by simp only [sizeofAllocator]; omega) hacc
  let s : BlockState := { mem := (initAllocator m space len objLen).2 }
  have hs : (blockSystem space len objLen).Reachable s := .init ⟨m, rfl⟩
  have hstep : (blockSystem space len objLen).Reachable
      ((blockSystem space len objLen).next s .alloc) := hs.step (by exact trivial)
  refine ⟨_, hstep, ?_⟩
  intro hsound
  have hmem : space+sizeofAllocator ∈ ((blockSystem space len objLen).next s .alloc).live := by
    have hne : space+sizeofAllocator ≠ 0 := by
      simp only [sizeofAllocator]
      omega
    simp only [blockSystem, BlockState.next, s, hfirst, if_neg hne]
    exact List.mem_cons_self
  have hin := (hsound.inside _ hmem).2
  simp only [sizeofAllocator] at hin
  omega

theorem BlockInv.reachable (hA : Arena.Wf ⟨space, len, blockSize objLen⟩)
    (hlen : Arena.chunk ⟨space, len, blockSize objLen⟩ 1 ≤ Arena.stop ⟨space, len, blockSize objLen⟩)
    {s : BlockState} (hs : (blockSystem space len objLen).Reachable s) :
    ∃ free b full cs, BlockInv ⟨space, len, blockSize objLen⟩ s free b full cs := by
  refine hs.invariant (P := fun s => ∃ free b full cs, BlockInv _ s free b full cs) ?_ ?_
  · rintro s ⟨m, rfl⟩
    obtain ⟨-, hinv, -⟩ := init_spec (m := m) hA hlen (blockSize_eq objLen)
    exact ⟨[], 0, false, [], hinv, rfl, List.nodup_nil, fun c hc => absurd hc List.not_mem_nil, rfl⟩
  · rintro s a ⟨free, b, full, cs, h⟩ hp
    cases a with
    | alloc => exact h.alloc hA
    | free block => exact h.release hA hp
    | write a bytes => exact ⟨free, b, full, cs, h.write hA hp⟩

/-- The allocator is sound in every run exactly when the size check does not wrap. -/
theorem allocator_sound_iff {m : Mem} (hend : space+len ≤ 2^63)
    (hacc : (initAllocator m space len objLen).1 ≠ 0) :
    (∀ s, (blockSystem space len objLen).Reachable s → s.Sound space len (blockSize objLen)) ↔
      sizeofAllocator+objLen < 2^64 := by
  constructor
  · intro h
    by_contra hwrap
    obtain ⟨s, hs, hbad⟩ := wrapped_unsound hend hacc (by omega)
    exact hbad (h s hs)
  · intro hno s hs
    obtain ⟨hne, hcheck⟩ := init_accepts hacc
    have hobj : blockSize objLen ≤ max objLen 16 := le_rfl
    simp only [sizeofAllocator] at hno hcheck
    rw [Nat.mod_eq_of_lt (by omega)] at hcheck
    have hA : Arena.Wf ⟨space, len, blockSize objLen⟩ :=
      ⟨Nat.pos_of_ne_zero hne, by simp only [Arena.stop]; omega, le_max_right _ _⟩
    have hone : Arena.chunk ⟨space, len, blockSize objLen⟩ 1 ≤
        Arena.stop ⟨space, len, blockSize objLen⟩ := by
      simp only [Arena.chunk, Arena.stop, sizeofAllocator]
      omega
    obtain ⟨free, b, full, cs, h⟩ := BlockInv.reachable hA hone hs
    exact h.sound hA

/-- Ten blocks of 128 bytes. -/
theorem allocator_sound_iff_ten :
    (∀ s, (blockSystem 4096 1304 128).Reachable s → s.Sound 4096 1304 (blockSize 128)) ↔
      sizeofAllocator+128 < 2^64 :=
  allocator_sound_iff (m := fun _ => 0) (by norm_num) (by
    simp only [initAllocator, sizeofAllocator, sizeofFreeNode]
    norm_num)

/-- An object of 2^64-1 bytes is accepted in a space of 64. -/
theorem oversized_object_accepted :
    ¬ ∀ s, (blockSystem 4096 64 (2^64-1)).Reachable s → s.Sound 4096 64 (blockSize (2^64-1)) := by
  intro h
  have hacc : (initAllocator (fun _ => 0) 4096 64 (2^64-1)).1 ≠ 0 := by
    simp only [initAllocator, sizeofAllocator, sizeofFreeNode]
    norm_num
  obtain ⟨s, hs, hbad⟩ := wrapped_unsound (by norm_num) hacc (by norm_num [sizeofAllocator])
  exact hbad (h s hs)

end

end Tasvir
