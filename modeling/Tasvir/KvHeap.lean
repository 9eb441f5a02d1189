import Mathlib.Tactic
import Tasvir.KvStore

/-! The heap of the key-value store: where its pointers lead, in the RW copy of its owner. -/
namespace Tasvir
open ByteMem

/-- The memory of the allocators of a store at `D`. -/
def entryArena (D : ℕ) : Arena := ⟨D+regionSize, regionSize, sizeofEntry⟩
def keyArena (D : ℕ) : Arena := ⟨D+2*regionSize, regionSize, keySize⟩
def valArena (D : ℕ) : Arena := ⟨D+3*regionSize, regionSize, valueSize⟩

/-- The store begins with a line and lies in the data region. -/
structure StoreAt (D : ℕ) : Prop where
  aligned : 64 ∣ D
  pos : 0 < D
  inside : D+4*regionSize ≤ 2^40

/-- The wrapper and the dictionary, of which `n` entries are used. -/
structure DictCells (D : ℕ) (m : Mem) (n : ℕ) : Prop where
  entries : get64 m D = D+regionSize
  keys : get64 m (D+8) = D+2*regionSize
  vals : get64 m (D+16) = D+3*regionSize
  dict : get64 m (D+24) = D+32
  table : get64 m (D+48) = D+128
  size : get64 m (D+56) = 2^24
  mask : get64 m (D+64) = 2^24-1
  used : get64 m (D+72) = n
  used1 : get64 m (D+104) = 0

/-- The entries: each leads to a key and to a value of its own. -/
structure Entries (D : ℕ) (m : Mem) (n nk : ℕ) (valUsed : ℕ → Prop) (full : Bool) : Prop where
  arena : (entryArena D).Inv m [] n full
  key : ∀ e < n, ∃ c < nk, get64 m ((entryArena D).chunk e) = (keyArena D).chunk c
  val : ∀ e < n, ∃ c, valUsed c ∧ get64 m ((entryArena D).chunk e+8) = (valArena D).chunk c
  inj : ∀ e < n, ∀ e' < n,
    get64 m ((entryArena D).chunk e+8) = get64 m ((entryArena D).chunk e'+8) → e = e'

/-- The keys are C strings. -/
structure Keys (D : ℕ) (m : Mem) (nk : ℕ) (full : Bool) : Prop where
  arena : (keyArena D).Inv m [] nk full
  ended : ∀ c < nk, ∃ j < keySize, m ((keyArena D).chunk c+j) = 0

/-- The chain of entries from pointer `p` on. -/
def Chain (D : ℕ) (m : Mem) : List ℕ → ℕ → Prop
  | [], p => p = 0
  | e :: es, p => p = (entryArena D).chunk e ∧ Chain D m es (get64 m (p+16))

/-- The slot of a key. -/
def slotOf (hash : List ℕ → ℕ) (key : List ℕ) : ℕ := hash key%2^32 &&& (2^24-1)

/-- The table: entry `e` is in the chain of the slot of its key `ks[e]`. -/
structure Chains (hash : List ℕ → ℕ) (D : ℕ) (m : Mem) (ks : List (List ℕ))
    (chains : ℕ → List ℕ) : Prop where
  linked : ∀ i < 2^24, Chain D m (chains i) (get64 m (D+128+8*i))
  nodup : ∀ i < 2^24, (chains i).Nodup
  mem : ∀ i < 2^24, ∀ e, e ∈ chains i ↔ ∃ k, ks[e]? = some k ∧ slotOf hash k = i

/-- A store whose entries have the keys `ks`, with `nk` key chunks taken. -/
structure KvHeap (hash : List ℕ → ℕ) (D : ℕ) (m : Mem) (ks : List (List ℕ)) (nk : ℕ)
    (free : List ℕ) (nv : ℕ) : Prop where
  cells : DictCells D m ks.length
  entries : ∃ full, Entries D m ks.length nk (Arena.Used free nv) full
  keys : ∃ full, Keys D m nk full
  vals : ∃ full, (valArena D).Inv m free nv full
  chains : ∃ chains, Chains hash D m ks chains
  labels : ∀ e k, ks[e]? = some k → cString m (get64 m ((entryArena D).chunk e)) = k
  nodup : ks.Nodup

/-- No line of the wrapper or of the dictionary is logged, and the RO copy is left alone. -/
structure Quiet (D : ℕ) (s s' : NodeMem) : Prop where
  log : ∀ l, D/64 ≤ l → l < D/64+2 → lineBit s'.log l = lineBit s.log l
  ro : s'.ro = s.ro
  lists : s'.lists = s.lists

theorem regionSize_eq : regionSize = 262144000 := by norm_num [regionSize]

theorem kvFuel_succ : kvFuel = 1099511627775+1 := by norm_num [kvFuel]

section
variable (D : ℕ)

theorem entry_chunk (i : ℕ) : (entryArena D).chunk i = D+regionSize+24+24*i := rfl

theorem key_chunk (c : ℕ) : (keyArena D).chunk c = D+2*regionSize+24+64*c := rfl

theorem val_chunk (c : ℕ) : (valArena D).chunk c = D+3*regionSize+24+256*c := rfl

theorem entry_stop : (entryArena D).stop = D+2*regionSize := by
  simp only [Arena.stop, entryArena]
  omega

theorem key_stop : (keyArena D).stop = D+3*regionSize := by
  simp only [Arena.stop, keyArena]
  omega

theorem val_stop : (valArena D).stop = D+4*regionSize := by
  simp only [Arena.stop, valArena]
  omega

end

section
variable {D : ℕ} (hD : StoreAt D)
include hD

theorem entry_wf : (entryArena D).Wf := by
  have h1 := hD.pos
  have h2 := hD.inside
  have h3 := entry_stop D
  exact ⟨by simp only [entryArena]; omega, by omega, by norm_num [entryArena, sizeofFreeNode, sizeofEntry]⟩

theorem key_wf : (keyArena D).Wf := by
  have h1 := hD.pos
  have h2 := hD.inside
  have h3 := key_stop D
  exact ⟨by simp only [keyArena]; omega, by omega, by norm_num [keyArena, sizeofFreeNode, keySize]⟩

theorem val_wf : (valArena D).Wf := by
  have h1 := hD.pos
  have h2 := hD.inside
  have h3 := val_stop D
  exact ⟨by simp only [valArena]; omega, by omega, by norm_num [valArena, sizeofFreeNode, valueSize]⟩

end

section
variable {D n nk nv : ℕ} {m m' : Mem} {free : List ℕ}

/-- The two memories differ in a range at most. -/
theorem same_of_outside {a b a' b' : ℕ} (h : ∀ x, x < a ∨ b ≤ x → m' x = m x)
    (hd : b' ≤ a ∨ b ≤ a') : Same m m' a' b' := fun x h1 h2 => h x (by omega)

theorem DictCells.congr (h : DictCells D m n) (hs : Same m m' D (D+128)) : DictCells D m' n := by
  have hget (a : ℕ) (h1 : D ≤ a) (h2 : a+8 ≤ D+128) : get64 m' a = get64 m a :=
    get64_congr (hs.mono h1 h2)
  refine ⟨?_, ?_, ?_, ?_, ?_, ?_, ?_, ?_, ?_⟩ <;> rw [hget _ (by omega) (by omega)]
  exacts [h.entries, h.keys, h.vals, h.dict, h.table, h.size, h.mask, h.used, h.used1]

/-- The entries and the keys lie in their regions. -/
theorem Entries.fits {valUsed : ℕ → Prop} {full : Bool} (h : Entries D m n nk valUsed full) :
    24+24*n ≤ regionSize := by
  have h1 := h.arena.fits
  rw [entry_chunk, entry_stop] at h1
  omega

theorem Keys.fits {full : Bool} (h : Keys D m nk full) : 24+64*nk ≤ regionSize := by
  have h1 := h.arena.fits
  rw [key_chunk, key_stop] at h1
  omega

theorem Entries.congr (hD : StoreAt D) {valUsed : ℕ → Prop} {full : Bool}
    (h : Entries D m n nk valUsed full)
    (hs : Same m m' (D+regionSize) (D+2*regionSize)) : Entries D m' n nk valUsed full := by
  have hfits := h.fits
  have hget (e : ℕ) (he : e < n) (k : ℕ) (hk : k ≤ 16) :
      get64 m' ((entryArena D).chunk e+k) = get64 m ((entryArena D).chunk e+k) := by
    rw [entry_chunk]
    exact get64_congr (hs.mono (by omega) (by omega))
  refine ⟨?_, ?_, ?_, ?_⟩
  · apply h.arena.congr (entry_wf hD)
    rw [entry_stop]
    exact hs
  · intro e he
    have h0 := hget e he 0 (by omega)
    rw [Nat.add_zero] at h0
    rw [h0]
    exact h.key e he
  · intro e he
    rw [hget e he 8 (by omega)]
    exact h.val e he
  · intro e he e' he'
    rw [hget e he 8 (by omega), hget e' he' 8 (by omega)]
    exact h.inj e he e' he'

theorem Entries.mono {valUsed valUsed' : ℕ → Prop} {full : Bool} {nk' : ℕ}
    (h : Entries D m n nk valUsed full) (hk : nk ≤ nk') (hv : ∀ c, valUsed c → valUsed' c) :
    Entries D m n nk' valUsed' full := by
  refine ⟨h.arena, ?_, ?_, h.inj⟩
  · intro e he
    obtain ⟨c, hc, hcell⟩ := h.key e he
    exact ⟨c, hc.trans_le hk, hcell⟩
  · intro e he
    obtain ⟨c, hc, hcell⟩ := h.val e he
    exact ⟨c, hv c hc, hcell⟩

theorem Keys.congr (hD : StoreAt D) {full : Bool} (h : Keys D m nk full)
    (hs : Same m m' (D+2*regionSize) (D+3*regionSize)) : Keys D m' nk full := by
  have hfits := h.fits
  refine ⟨?_, ?_⟩
  · apply h.arena.congr (key_wf hD)
    rw [key_stop]
    exact hs
  · intro c hc
    obtain ⟨j, hj, hnul⟩ := h.ended c hc
    refine ⟨j, hj, ?_⟩
    simp only [keySize] at hj
    rw [hs _ (by rw [key_chunk]; omega) (by rw [key_chunk]; omega), hnul]

/-- A key is the same string when its chunk is the same. -/
theorem Keys.cString_congr {full : Bool} (h : Keys D m nk full) {c : ℕ} (hc : c < nk)
    (hs : Same m m' ((keyArena D).chunk c) ((keyArena D).chunk c+64)) :
    cString m' ((keyArena D).chunk c) = cString m ((keyArena D).chunk c) := by
  obtain ⟨j, hj, hnul⟩ := h.ended c hc
  simp only [keySize] at hj
  exact cstr_congr kvFuel j hnul (hs.mono le_rfl (by omega))

theorem vals_congr (hD : StoreAt D) {full : Bool} (h : (valArena D).Inv m free nv full)
    (hs : Same m m' (D+3*regionSize) (D+4*regionSize)) : (valArena D).Inv m' free nv full := by
  apply h.congr (val_wf hD)
  rw [val_stop]
  exact hs

/-- A chain depends on `next` of its entries. -/
theorem Chain.congr {es : List ℕ} {p : ℕ} (h : Chain D m es p)
    (hnext : ∀ e ∈ es, get64 m' ((entryArena D).chunk e+16) = get64 m ((entryArena D).chunk e+16)) :
    Chain D m' es p := by
  induction es generalizing p with
  | nil => exact h
  | cons e es ih =>
    obtain ⟨rfl, hrest⟩ := h
    refine ⟨rfl, ?_⟩
    rw [hnext e List.mem_cons_self]
    exact ih hrest fun e' he' => hnext e' (List.mem_cons_of_mem _ he')

theorem Chains.lt_length {hash : List ℕ → ℕ} {ks : List (List ℕ)} {chains : ℕ → List ℕ}
    (h : Chains hash D m ks chains) {i : ℕ} (hi : i < 2^24) {e : ℕ} (he : e ∈ chains i) :
    e < ks.length := by
  obtain ⟨k, hk, -⟩ := (h.mem i hi e).mp he
  exact (List.getElem?_eq_some_iff.mp hk).1

theorem Chains.congr {hash : List ℕ → ℕ} {ks : List (List ℕ)} {chains : ℕ → List ℕ}
    (h : Chains hash D m ks chains)
    (hslot : ∀ i < 2^24, get64 m' (D+128+8*i) = get64 m (D+128+8*i))
    (hnext : ∀ e < ks.length,
      get64 m' ((entryArena D).chunk e+16) = get64 m ((entryArena D).chunk e+16)) :
    Chains hash D m' ks chains := by
  refine ⟨?_, h.nodup, h.mem⟩
  intro i hi
  rw [hslot i hi]
  exact (h.linked i hi).congr fun e he => hnext e (h.lt_length hi he)

/-- The heap after a change of the keys and the values that leaves those in use alone. -/
theorem KvHeap.frame (hD : StoreAt D) {hash : List ℕ → ℕ} {ks : List (List ℕ)}
    (h : KvHeap hash D m ks nk free nv) (hs : Same m m' D (D+2*regionSize)) {nk' nv' : ℕ}
    {free' : List ℕ} (hnk : nk ≤ nk')
    (hkeys : ∀ c < nk, Same m m' ((keyArena D).chunk c) ((keyArena D).chunk c+64))
    (hkeys' : ∃ full, Keys D m' nk' full) (hvals' : ∃ full, (valArena D).Inv m' free' nv' full)
    (hused : ∀ c, Arena.Used free nv c → Arena.Used free' nv' c) :
    KvHeap hash D m' ks nk' free' nv' := by
  have hR := regionSize_eq
  obtain ⟨fe, hentries⟩ := h.entries
  obtain ⟨fk, hkeys0⟩ := h.keys
  obtain ⟨chains, hchains⟩ := h.chains
  have hfits := hentries.fits
  have hcell (e : ℕ) (he : e < ks.length) (k : ℕ) (hk : k ≤ 16) :
      get64 m' ((entryArena D).chunk e+k) = get64 m ((entryArena D).chunk e+k) := by
    rw [entry_chunk]
    exact get64_congr (hs.mono (by omega) (by omega))
  refine ⟨h.cells.congr (hs.mono (by omega) (by omega)), ⟨fe, ?_⟩, hkeys', hvals', ⟨chains, ?_⟩, ?_,
    h.nodup⟩
  · exact (hentries.congr hD (hs.mono (by omega) le_rfl)).mono hnk hused
  · apply hchains.congr
    · intro i hi
      exact get64_congr (hs.mono (by omega) (by omega))
    · intro e he
      exact hcell e he 16 le_rfl
  · intro e k hk
    have he := (List.getElem?_eq_some_iff.mp hk).1
    have h0 := hcell e he 0 (Nat.zero_le _)
    rw [Nat.add_zero] at h0
    obtain ⟨c, hc, hkey⟩ := hentries.key e he
    have hlabel := h.labels e k hk
    rw [hkey] at hlabel
    rw [h0, hkey, hkeys0.cString_congr hc (hkeys c hc), hlabel]

/-- The heap depends on the memory of the store only. -/
theorem KvHeap.congr (hD : StoreAt D) {hash : List ℕ → ℕ} {ks : List (List ℕ)}
    (h : KvHeap hash D m ks nk free nv) (hs : Same m m' D (D+4*regionSize)) :
    KvHeap hash D m' ks nk free nv := by
  have hR := regionSize_eq
  obtain ⟨fk, hkeys⟩ := h.keys
  obtain ⟨fv, hvals⟩ := h.vals
  have hfits := hkeys.fits
  apply h.frame hD (hs.mono le_rfl (by omega)) le_rfl
  · intro c hc
    rw [key_chunk]
    exact hs.mono (by omega) (by omega)
  · exact ⟨fk, hkeys.congr hD (hs.mono (by omega) (by omega))⟩
  · exact ⟨fv, vals_congr hD hvals (hs.mono (by omega) (by omega))⟩
  · exact fun c hc => hc

end

section
variable {D : ℕ} {s s' : NodeMem}

theorem Quiet.trans {s'' : NodeMem} (h : Quiet D s s') (h' : Quiet D s' s'') : Quiet D s s'' :=
  ⟨fun l h1 h2 => (h'.log l h1 h2).trans (h.log l h1 h2), h'.ro.trans h.ro, h'.lists.trans h.lists⟩

/-- A write to the RW copy logs nothing. -/
theorem quiet_rw (D : ℕ) (s : NodeMem) (m : Mem) : Quiet D s { s with rw := m } :=
  ⟨fun _ _ _ => rfl, rfl, rfl⟩

-- the unifier must not compare the logs of two states, so these go through any log
theorem withLog (s : NodeMem) (w : Words) : { s with log := w }.ro = s.ro ∧
    { s with log := w }.rw = s.rw ∧ { s with log := w }.lists = s.lists ∧
    { s with log := w }.log = w := ⟨rfl, rfl, rfl, rfl⟩

@[simp] theorem wrapLogWrite_ro (s : NodeMem) (data size : ℕ) : (wrapLogWrite s data size).ro = s.ro := by
  unfold wrapLogWrite
  exact (withLog s _).1

@[simp] theorem wrapLogWrite_rw (s : NodeMem) (data size : ℕ) : (wrapLogWrite s data size).rw = s.rw := by
  unfold wrapLogWrite
  exact (withLog s _).2.1

@[simp] theorem wrapLogWrite_lists (s : NodeMem) (data size : ℕ) :
    (wrapLogWrite s data size).lists = s.lists := by
  unfold wrapLogWrite
  exact (withLog s _).2.2.1

theorem wrapLogWrite_log (s : NodeMem) (data size : ℕ) :
    (wrapLogWrite s data size).log = tasvirLog s.log (addrData+data) size := by
  unfold wrapLogWrite
  exact (withLog s _).2.2.2

/-- The lines of the written range are logged. -/
theorem lineBit_wrapLogWrite (s : NodeMem) (data size l : ℕ) (hsize : 1 ≤ size)
    (hend : data+size ≤ 2^40) : lineBit (wrapLogWrite s data size).log l =
      (lineBit s.log l || decide (data/64 ≤ l ∧ l ≤ (data+size-1)/64)) := by
  have hmod : (addrData+data)%2^40 = data := by
    rw [addrData]
    omega
  have hbit := lineBit_tasvirLog s.log (addrData+data) size l hsize (by omega)
    (by rw [addrData]; omega)
  rw [hmod] at hbit
  rw [wrapLogWrite_log]
  exact hbit

/-- What is logged outside of the lines of the dictionary. -/
theorem quiet_wrapLogWrite (hD : StoreAt D) (s : NodeMem) (data size : ℕ) (hsize : 1 ≤ size)
    (hdata : D+128 ≤ data) (hend : data+size ≤ 2^40) : Quiet D s (wrapLogWrite s data size) := by
  refine ⟨?_, wrapLogWrite_ro s data size, wrapLogWrite_lists s data size⟩
  intro l h1 h2
  obtain ⟨k, hk⟩ := hD.aligned
  have hclear : ¬(data/64 ≤ l ∧ l ≤ (data+size-1)/64) := by omega
  rw [lineBit_wrapLogWrite s data size l hsize hend, decide_eq_false hclear, Bool.or_false]

end

end Tasvir
