import Mathlib.Tactic
import Tasvir.ByteMem
import Tasvir.SyncList

/-! The allocator of the key-value store: chunks of one size, taken from a free list that
lies in the chunks themselves. Pointers are offsets from TASVIR_ADDR_DATA, and NULL is 0. -/
namespace Tasvir
open ByteMem

/-- A pointer or `size_t` in memory. -/
def get64 (m : Mem) (a : ℕ) : ℕ := load m a 8

def set64 (m : Mem) (a v : ℕ) : Mem := store m a (encode 8 v)

/-- `sizeof(Allocator)`: `head`, `used` and `alloc_size`. -/
def sizeofAllocator : ℕ := 24

/-- `sizeof(FreeNode)`: `next` and `size`. -/
def sizeofFreeNode : ℕ := 16

/-- `init_allocator`. -/
def initAllocator (m : Mem) (space len objLen : ℕ) : ℕ × Mem :=
  let objSize := if objLen > sizeofFreeNode then objLen else sizeofFreeNode
  if len < (sizeofAllocator+objSize)%2^64 then (0, m)
  else
    let remaining := (len+2^64-sizeofAllocator)%2^64
    let m := set64 m (space+8) 0
    let m := set64 m (space+16) objSize
    let m := set64 m space (space+sizeofAllocator)
    let m := set64 m (space+sizeofAllocator+8) remaining
    (space, set64 m (space+sizeofAllocator) 0)

/-- `alloc_allocator`. -/
def allocAllocator (m : Mem) (allocator : ℕ) : ℕ × Mem :=
  let head := get64 m allocator
  if head = 0 then (0, m)
  else if get64 m (head+8) ≥ 2*get64 m (allocator+16)%2^64 then
    let allocSize := get64 m (allocator+16)
    let newTailSize := get64 m (head+8)-allocSize
    let m := set64 m allocator (head+allocSize)
    let m := set64 m (head+allocSize) 0
    (head, set64 m (head+allocSize+8) newTailSize)
  else (head, set64 m allocator (get64 m head))

/-- `free_allocator`. -/
def freeAllocator (m : Mem) (allocator region : ℕ) : Mem :=
  let m := set64 m region (get64 m allocator)
  let m := set64 m (region+8) (get64 m (allocator+16))
  set64 m allocator region

/-- The memory that an allocator is given, and the size of its chunks. -/
structure Arena where
  base : ℕ
  len : ℕ
  size : ℕ

namespace Arena

def chunk (A : Arena) (c : ℕ) : ℕ := A.base+sizeofAllocator+A.size*c

def stop (A : Arena) : ℕ := A.base+A.len

structure Wf (A : Arena) : Prop where
  base_pos : 0 < A.base
  /-- the lower half of the address space -/
  inside : A.stop ≤ 2^63
  size_le : sizeofFreeNode ≤ A.size

/-- The free list from pointer `p` on: chunks that were given back, then what has never
been taken, from chunk `b` on, unless that is used up. -/
def Linked (A : Arena) (m : Mem) (b : ℕ) (full : Bool) : List ℕ → ℕ → Prop
  | [], p => if full then p = 0 else p = A.chunk b ∧ get64 m p = 0 ∧
      get64 m (p+8) = A.stop-A.chunk b
  | c :: cs, p => p = A.chunk c ∧ get64 m (p+8) = A.size ∧ A.Linked m b full cs (get64 m p)

/-- Chunks up to `b` have been taken, and those in `free` given back. -/
structure Inv (A : Arena) (m : Mem) (free : List ℕ) (b : ℕ) (full : Bool) : Prop where
  size : get64 m (A.base+16) = A.size
  linked : A.Linked m b full free (get64 m A.base)
  nodup : free.Nodup
  below : ∀ c ∈ free, c < b
  fits : A.chunk b ≤ A.stop
  room : full = false → A.chunk (b+1) ≤ A.stop
  last : full = true → A.stop < A.chunk (b+1)

/-- A chunk that is in use. -/
def Used (free : List ℕ) (b c : ℕ) : Prop := c < b ∧ c ∉ free

end Arena

theorem get64_congr {m m' : Mem} {a : ℕ} (h : Same m m' a (a+8)) : get64 m' a = get64 m a :=
  load_congr 8 h

theorem get64_set64 (m : Mem) (a : ℕ) {v : ℕ} (hv : v < 2^64) : get64 (set64 m a v) a = v :=
  load_store_lt m a 8 (by simpa using hv)

theorem get64_store_ne (m : Mem) {a c : ℕ} (bs : List ℕ) (h : a+8 ≤ c ∨ c+bs.length ≤ a) :
    get64 (store m c bs) a = get64 m a := load_store_ne m bs h

theorem get64_set64_ne (m : Mem) {a c : ℕ} (v : ℕ) (h : a+8 ≤ c ∨ c+8 ≤ a) :
    get64 (set64 m c v) a = get64 m a := get64_store_ne m _ (by rwa [length_encode])

theorem same_set64 (m : Mem) {a b c : ℕ} (v : ℕ) (h : b ≤ c ∨ c+8 ≤ a) :
    Same m (set64 m c v) a b := same_store m (by rwa [length_encode])

theorem length_le_of_lt {l : List ℕ} {n : ℕ} (hl : l.Nodup) (h : ∀ e ∈ l, e < n) :
    l.length ≤ n := by
  have hsub := hl.subperm fun e he => List.mem_range.mpr (h e he)
  simpa using hsub.length_le

section
variable {A : Arena} {m m' : Mem} {free : List ℕ} {b : ℕ} {full : Bool}

theorem chunk_succ (A : Arena) (c : ℕ) : A.chunk (c+1) = A.chunk c+A.size := by
  simp only [Arena.chunk, Nat.mul_add, Nat.mul_one]
  omega

theorem chunk_mono (A : Arena) {c c' : ℕ} (h : c ≤ c') : A.chunk c ≤ A.chunk c' := by
  have := Nat.mul_le_mul_left A.size h
  simp only [Arena.chunk]
  omega

theorem chunk_le (A : Arena) {c c' : ℕ} (h : c < c') : A.chunk c+A.size ≤ A.chunk c' := by
  rw [← chunk_succ]
  exact chunk_mono A h

/-- Different chunks lie apart. -/
theorem chunk_apart (A : Arena) {c c' : ℕ} (h : c ≠ c') :
    A.chunk c+A.size ≤ A.chunk c' ∨ A.chunk c'+A.size ≤ A.chunk c := by
  rcases Nat.lt_or_gt_of_ne h with h | h
  · exact Or.inl (chunk_le A h)
  · exact Or.inr (chunk_le A h)

/-- The list depends on the nodes in it. -/
theorem Arena.Linked.congr {p : ℕ} (h : A.Linked m b full free p)
    (hfree : ∀ c ∈ free, Same m m' (A.chunk c) (A.chunk c+16))
    (hb : full = false → Same m m' (A.chunk b) (A.chunk b+16)) : A.Linked m' b full free p := by
  induction free generalizing p with
  | nil =>
    cases full with
    | true =>
      simp only [Arena.Linked, ↓reduceIte] at h ⊢
      exact h
    | false =>
      obtain ⟨rfl, h1, h2⟩ := h
      have hsame := hb rfl
      refine ⟨rfl, ?_, ?_⟩
      · rw [get64_congr (hsame.mono le_rfl (by omega)), h1]
      · rw [get64_congr (hsame.mono (by omega) (by omega)), h2]
  | cons c cs ih =>
    obtain ⟨rfl, h1, h2⟩ := h
    have hsame := hfree c List.mem_cons_self
    refine ⟨rfl, ?_, ?_⟩
    · rw [get64_congr (hsame.mono (by omega) (by omega)), h1]
    · rw [get64_congr (hsame.mono le_rfl (by omega))]
      exact ih h2 fun c' hc' => hfree c' (List.mem_cons_of_mem _ hc')

theorem chunk_zero (A : Arena) : A.chunk 0 = A.base+24 := by
  simp only [Arena.chunk, sizeofAllocator, Nat.mul_zero, Nat.add_zero]

theorem base_lt_chunk (A : Arena) (c : ℕ) : A.base+24 ≤ A.chunk c := by
  rw [← chunk_zero]
  exact chunk_mono A (Nat.zero_le c)

/-- The invariant depends on the memory of the arena only. -/
theorem Arena.Inv.congr (hA : A.Wf) (h : A.Inv m free b full) (hs : Same m m' A.base A.stop) :
    A.Inv m' free b full := by
  have hsize := hA.size_le
  simp only [sizeofFreeNode] at hsize
  have hfits := h.fits
  have hhead := base_lt_chunk A b
  refine ⟨?_, ?_, h.nodup, h.below, h.fits, h.room, h.last⟩
  · rw [get64_congr (hs.mono (by omega) (by omega)), h.size]
  · rw [get64_congr (hs.mono le_rfl (by omega))]
    refine h.linked.congr (fun c hc => ?_) (fun hf => ?_)
    · have h1 := chunk_le A (h.below c hc)
      have h2 := base_lt_chunk A c
      exact hs.mono (by omega) (by omega)
    · have h1 := h.room hf
      have h2 := chunk_succ A b
      exact hs.mono (by omega) (by omega)

/-- Bytes are put into a chunk that is in use. -/
theorem Arena.Inv.fill (hA : A.Wf) (h : A.Inv m free b full) {c : ℕ} (hc : Arena.Used free b c)
    {a : ℕ} {bs : List ℕ} (ha : A.chunk c ≤ a) (hbs : a+bs.length ≤ A.chunk c+A.size) :
    A.Inv (store m a bs) free b full := by
  have hsize := hA.size_le
  simp only [sizeofFreeNode] at hsize
  have hhead := base_lt_chunk A c
  refine ⟨?_, ?_, h.nodup, h.below, h.fits, h.room, h.last⟩
  · rw [get64_store_ne m bs (by omega), h.size]
  · rw [get64_store_ne m bs (by omega)]
    refine h.linked.congr (fun c' hc' => ?_) (fun hf => ?_)
    · have hne : c' ≠ c := by
        rintro rfl
        exact hc.2 hc'
      have := chunk_apart A hne
      exact same_store m (by omega)
    · have h1 := chunk_le A hc.1
      exact same_store m (by omega)

theorem Arena.Inv.set (hA : A.Wf) (h : A.Inv m free b full) {c : ℕ} (hc : Arena.Used free b c)
    (v : ℕ) {a : ℕ} (ha : A.chunk c ≤ a) (hend : a+8 ≤ A.chunk c+A.size) :
    A.Inv (set64 m a v) free b full :=
  h.fill hA hc ha (by rwa [length_encode])

/-- A pointer of the list is NULL or points into the arena. -/
theorem Arena.Linked.le {p : ℕ} (h : A.Linked m b full free p) (hbelow : ∀ c ∈ free, c < b)
    (hfits : A.chunk b ≤ A.stop) : p ≤ A.stop := by
  cases free with
  | nil =>
    cases full with
    | true =>
      rw [show p = 0 from h]
      exact Nat.zero_le _
    | false =>
      rw [h.1]
      exact hfits
  | cons c cs =>
    rw [h.1]
    exact (chunk_mono A (hbelow c List.mem_cons_self).le).trans hfits

/-- What an allocation does: the chunk `c` was not in use, those that were stay so with what
is in them, and nothing outside of the arena is touched. -/
structure Arena.Allocates (A : Arena) (m m' : Mem) (free : List ℕ) (b c : ℕ) (free' : List ℕ)
    (b' : ℕ) : Prop where
  used : Arena.Used free' b' c
  stays : ∀ c', Arena.Used free b c' → c' ≠ c ∧ Arena.Used free' b' c'
  fresh : free = [] → c = b ∧ b' = b+1 ∧ free' = []
  count : b'+free.length = b+free'.length+1
  chunks : Same m m' (A.base+8) (A.chunk b')
  outside : ∀ x, x < A.base ∨ A.stop ≤ x → m' x = m x

/-- A chunk that was given back is handed out whole: it is too small to be split. -/
theorem alloc_again {c : ℕ} (hA : A.Wf) (h : A.Inv m (c :: free) b full) (hp : get64 m A.base ≠ 0) :
    (allocAllocator m A.base).1 = A.chunk c ∧ A.Inv (allocAllocator m A.base).2 free b full ∧
      A.Allocates m (allocAllocator m A.base).2 (c :: free) b c free b := by
  have hsize := hA.size_le
  simp only [sizeofFreeNode] at hsize
  have hfits := h.fits
  have hstop := hA.inside
  have hhead := base_lt_chunk A b
  obtain ⟨hpc, hpsize, hrest⟩ := h.linked
  have hfirst := chunk_le A (h.below c List.mem_cons_self)
  have hsmall : ¬ get64 m (get64 m A.base+8) ≥ 2*get64 m (A.base+16)%2^64 := by
    rw [hpsize, h.size, Nat.mod_eq_of_lt (by omega)]
    omega
  have hcb := h.below c List.mem_cons_self
  have hnodup := List.nodup_cons.mp h.nodup
  have hbelow (c' : ℕ) (hc' : c' ∈ free) : c' < b := h.below c' (List.mem_cons_of_mem _ hc')
  have hnext := hrest.le hbelow hfits
  rw [allocAllocator, if_neg hp, if_neg hsmall]
  refine ⟨hpc, ⟨?_, ?_, hnodup.2, hbelow, h.fits, h.room, h.last⟩, ?_⟩
  · rw [get64_set64_ne m _ (by omega), h.size]
  · -- the list goes on behind the chunk, which only the head of the list pointed to
    rw [get64_set64 m _ (by omega)]
    refine hrest.congr (fun c' _ => ?_) (fun _ => ?_)
    · have := base_lt_chunk A c'
      exact same_set64 m _ (by omega)
    · exact same_set64 m _ (by omega)
  · refine ⟨⟨hcb, hnodup.1⟩, fun c' hc' => ⟨?_, hc'.1, ?_⟩, ?_, ?_, same_set64 m _ (by omega), ?_⟩
    · rintro rfl
      exact hc'.2 List.mem_cons_self
    · exact fun hm => hc'.2 (List.mem_cons_of_mem _ hm)
    · intro hf
      exact absurd hf (List.cons_ne_nil _ _)
    · rw [List.length_cons]
      omega
    · intro x hx
      exact same_set64 m _ (a := x) (b := x+1) (by omega) x le_rfl (by omega)

/-- With nothing given back, the next chunk of the arena is handed out, and what remains
begins one chunk further as long as another one fits. -/
theorem alloc_next (hA : A.Wf) (h : A.Inv m [] b false) (hp : get64 m A.base ≠ 0) :
    ∃ full', (allocAllocator m A.base).1 = A.chunk b ∧
      A.Inv (allocAllocator m A.base).2 [] (b+1) full' ∧
      A.Allocates m (allocAllocator m A.base).2 [] b b [] (b+1) := by
  have hsize := hA.size_le
  simp only [sizeofFreeNode] at hsize
  have hfits := h.fits
  have hstop := hA.inside
  have hhead := base_lt_chunk A b
  obtain ⟨hpc, hpnext, hpsize⟩ := h.linked
  have hroom := h.room rfl
  have hsucc := chunk_succ A b
  have hnodup : ([] : List ℕ).Nodup := List.nodup_nil
  have hnone (c' : ℕ) (hc' : c' ∈ ([] : List ℕ)) : c' < b+1 := absurd hc' List.not_mem_nil
  have hstays (c' : ℕ) (hc' : Arena.Used [] b c') : c' ≠ b ∧ Arena.Used [] (b+1) c' :=
    ⟨Nat.ne_of_lt hc'.1, Nat.lt_succ_of_lt hc'.1, List.not_mem_nil⟩
  have hused : Arena.Used [] (b+1) b := ⟨Nat.lt_succ_self b, List.not_mem_nil⟩
  have hcount : b+1+([] : List ℕ).length = b+([] : List ℕ).length+1 := rfl
  -- the test of the code, in chunks
  have htest : get64 m (get64 m A.base+8) ≥ 2*get64 m (A.base+16)%2^64 ↔
      A.chunk (b+1)+A.size ≤ A.stop := by
    rw [hpc] at hpsize
    rw [hpc, hpsize, h.size, Nat.mod_eq_of_lt (by omega)]
    omega
  by_cases hsplit : get64 m (get64 m A.base+8) ≥ 2*get64 m (A.base+16)%2^64
  · -- the rest begins one chunk further
    have hlen := htest.mp hsplit
    have hval : (allocAllocator m A.base) = (A.chunk b,
        set64 (set64 (set64 m A.base (A.chunk (b+1))) (A.chunk (b+1)) 0) (A.chunk (b+1)+8)
          (A.stop-A.chunk (b+1))) := by
      rw [allocAllocator, if_neg hp, if_pos hsplit]
      dsimp only
      rw [hpsize, h.size, hpc, hsucc, Nat.sub_sub]
    rw [hval]
    refine ⟨false, rfl, ⟨?_, ?_, hnodup, hnone, hroom, fun _ => ?_, nofun⟩, ?_⟩
    · rw [get64_set64_ne _ _ (by omega), get64_set64_ne _ _ (by omega),
        get64_set64_ne _ _ (by omega), h.size]
    · rw [get64_set64_ne _ _ (by omega), get64_set64_ne _ _ (by omega),
        get64_set64 _ _ (by omega)]
      refine ⟨rfl, ?_, ?_⟩
      · rw [get64_set64_ne _ _ (by omega), get64_set64 _ _ (by omega)]
      · rw [get64_set64 _ _ (by omega)]
    · rw [chunk_succ A (b+1)]
      exact hlen
    · refine ⟨hused, hstays, fun _ => ⟨rfl, rfl, rfl⟩, hcount, ?_, ?_⟩
      · exact ((same_set64 m _ (by omega)).trans (same_set64 _ _ (by omega))).trans
          (same_set64 _ _ (by omega))
      · intro x hx
        have h1 := same_set64 m (A.chunk (b+1)) (a := x) (b := x+1) (c := A.base) (by omega)
        have h2 := same_set64 (set64 m A.base (A.chunk (b+1))) 0 (a := x) (b := x+1)
          (c := A.chunk (b+1)) (by omega)
        have h3 := same_set64 (set64 (set64 m A.base (A.chunk (b+1))) (A.chunk (b+1)) 0)
          (A.stop-A.chunk (b+1)) (a := x) (b := x+1) (c := A.chunk (b+1)+8) (by omega)
        exact ((h1.trans h2).trans h3) x le_rfl (Nat.lt_succ_self x)
  · -- the last chunk: its next pointer, 0, becomes the head of the list
    have hval : (allocAllocator m A.base) = (A.chunk b, set64 m A.base 0) := by
      rw [allocAllocator, if_neg hp, if_neg hsplit, hpnext, hpc]
    rw [hval]
    have hlast : A.stop < A.chunk (b+1+1) := by
      rw [htest] at hsplit
      rw [chunk_succ A (b+1)]
      omega
    refine ⟨true, rfl, ⟨?_, ?_, hnodup, hnone, hroom, nofun, fun _ => hlast⟩, ?_⟩
    · rw [get64_set64_ne _ _ (by omega), h.size]
    · exact get64_set64 _ _ (by norm_num)
    · refine ⟨hused, hstays, fun _ => ⟨rfl, rfl, rfl⟩, hcount, same_set64 m _ (by omega), ?_⟩
      intro x hx
      exact same_set64 m _ (a := x) (b := x+1) (by omega) x le_rfl (Nat.lt_succ_self x)

theorem alloc_spec (hA : A.Wf) (h : A.Inv m free b full) (hp : get64 m A.base ≠ 0) :
    ∃ c free' b' full', (allocAllocator m A.base).1 = A.chunk c ∧
      A.Inv (allocAllocator m A.base).2 free' b' full' ∧
      A.Allocates m (allocAllocator m A.base).2 free b c free' b' := by
  cases free with
  | cons c cs => exact ⟨c, cs, b, full, alloc_again hA h hp⟩
  | nil =>
    cases full with
    | true => exact absurd h.linked hp
    | false =>
      obtain ⟨full', hnext⟩ := alloc_next hA h hp
      exact ⟨b, [], b+1, full', hnext⟩

/-- Giving a chunk back touches the chunk and the head of the list. -/
theorem free_spec (hA : A.Wf) (h : A.Inv m free b full) {c : ℕ} (hc : Arena.Used free b c) :
    A.Inv (freeAllocator m A.base (A.chunk c)) (c :: free) b full ∧
    ∀ x, x < A.base ∨ A.stop ≤ x → freeAllocator m A.base (A.chunk c) x = m x := by
  have hsize := hA.size_le
  simp only [sizeofFreeNode] at hsize
  have hfits := h.fits
  have hstop := hA.inside
  have hhead := base_lt_chunk A c
  have hend := chunk_le A hc.1
  have hptr := h.linked.le h.below hfits
  have hval : freeAllocator m A.base (A.chunk c) = set64 (set64 (set64 m (A.chunk c)
      (get64 m A.base)) (A.chunk c+8) A.size) A.base (A.chunk c) := by
    rw [freeAllocator, get64_set64_ne m _ (by omega), h.size]
  rw [hval]
  constructor
  · refine ⟨?_, ⟨?_, ?_, ?_⟩, List.nodup_cons.mpr ⟨hc.2, h.nodup⟩, ?_, hfits, h.room, h.last⟩
    · rw [get64_set64_ne _ _ (by omega), get64_set64_ne _ _ (by omega),
        get64_set64_ne _ _ (by omega), h.size]
    · exact get64_set64 _ _ (by omega)
    · rw [get64_set64 _ _ (by omega), get64_set64_ne _ _ (by omega), get64_set64 _ _ (by omega)]
    · rw [get64_set64 _ _ (by omega), get64_set64_ne _ _ (by omega), get64_set64_ne _ _ (by omega),
        get64_set64 _ _ (by omega)]
      refine h.linked.congr (fun c' hc' => ?_) (fun hf => ?_)
      · have hne : c' ≠ c := by
          rintro rfl
          exact hc.2 hc'
        have h1 := chunk_apart A hne
        have h2 := base_lt_chunk A c'
        exact ((same_set64 m _ (by omega)).trans (same_set64 _ _ (by omega))).trans
          (same_set64 _ _ (by omega))
      · exact ((same_set64 m _ (by omega)).trans (same_set64 _ _ (by omega))).trans
          (same_set64 _ _ (by omega))
    · intro c' hc'
      rcases List.mem_cons.mp hc' with hc' | hc'
      · rw [hc']
        exact hc.1
      · exact h.below c' hc'
  · intro x hx
    have h1 : Same m (set64 m (A.chunk c) (get64 m A.base)) x (x+1) := same_set64 _ _ (by omega)
    have h2 := h1.trans (same_set64 _ A.size (c := A.chunk c+8) (by omega))
    exact (h2.trans (same_set64 _ (A.chunk c) (c := A.base) (by omega))) x le_rfl
      (Nat.lt_succ_self x)

/-- A new allocator has everything to give. -/
theorem init_spec (hA : A.Wf) (hlen : A.chunk 1 ≤ A.stop) {objLen : ℕ}
    (hobj : A.size = if objLen > sizeofFreeNode then objLen else sizeofFreeNode) :
    (initAllocator m A.base A.len objLen).1 = A.base ∧
    A.Inv (initAllocator m A.base A.len objLen).2 [] 0 false ∧
    ∀ x, x < A.base ∨ A.stop ≤ x → (initAllocator m A.base A.len objLen).2 x = m x := by
  have hsize := hA.size_le
  have hstop := hA.inside
  have hzero := chunk_zero A
  have hone : A.chunk 1 = A.chunk 0+A.size := chunk_succ A 0
  have hstop' : A.stop = A.base+A.len := rfl
  simp only [sizeofFreeNode] at hsize
  have hval : initAllocator m A.base A.len objLen = (A.base,
      set64 (set64 (set64 (set64 (set64 m (A.base+8) 0) (A.base+16) A.size) A.base (A.base+24))
        (A.base+24+8) (A.len-24)) (A.base+24) 0) := by
    rw [initAllocator]
    dsimp only
    rw [← hobj, if_neg (by simp only [sizeofAllocator]; omega)]
    simp only [sizeofAllocator]
    rw [show (A.len+2^64-24)%2^64 = A.len-24 from by omega]
  rw [hval]
  dsimp only
  have hhead : get64 (set64 (set64 (set64 (set64 (set64 m (A.base+8) 0) (A.base+16) A.size) A.base
      (A.base+24)) (A.base+24+8) (A.len-24)) (A.base+24) 0) A.base = A.base+24 := by
    rw [get64_set64_ne _ _ (by omega), get64_set64_ne _ _ (by omega), get64_set64 _ _ (by omega)]
  refine ⟨rfl, ⟨?_, ?_, List.nodup_nil, ?_, ?_, fun _ => hlen, nofun⟩, ?_⟩
  · rw [get64_set64_ne _ _ (by omega), get64_set64_ne _ _ (by omega), get64_set64_ne _ _ (by omega),
      get64_set64 _ _ (by omega)]
  · rw [hhead]
    refine ⟨hzero.symm, get64_set64 _ _ (by norm_num), ?_⟩
    rw [get64_set64_ne _ _ (by omega), get64_set64 _ _ (by omega), hzero]
    omega
  · exact fun c hc => absurd hc List.not_mem_nil
  · omega
  · intro x hx
    have h1 : Same m (set64 m (A.base+8) 0) x (x+1) := same_set64 _ _ (by omega)
    have h2 := h1.trans (same_set64 _ A.size (c := A.base+16) (by omega))
    have h3 := h2.trans (same_set64 _ (A.base+24) (c := A.base) (by omega))
    have h4 := h3.trans (same_set64 _ (A.len-24) (c := A.base+24+8) (by omega))
    exact (h4.trans (same_set64 _ 0 (c := A.base+24) (by omega))) x le_rfl (Nat.lt_succ_self x)

end

end Tasvir
