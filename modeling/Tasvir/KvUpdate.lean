import Mathlib.Tactic
import Tasvir.KvHeap

/-! What `update` and `dictFind` do on the heap of the key-value store. -/
namespace Tasvir
open ByteMem

/-- A C string with its terminator fits in `n` bytes. -/
def FitsIn (n : ℕ) (bs : List ℕ) : Prop := bs.length < n ∧ ∀ b ∈ bs, 0 < b ∧ b < 256

section
variable {hash : List ℕ → ℕ} {D nk nv : ℕ} {s : NodeMem} {free : List ℕ} {ks : List (List ℕ)}

/-- An allocator has changed and is logged. -/
theorem quiet_allocator (hD : StoreAt D) (s : NodeMem) (m : Mem) {a : ℕ} (ha : D+128 ≤ a)
    (hend : a+24 ≤ 2^40) : Quiet D s (wrapLogWrite { s with rw := m } a sizeofAllocator) :=
  (quiet_rw D s m).trans
    (quiet_wrapLogWrite hD _ a sizeofAllocator (by norm_num [sizeofAllocator]) ha hend)

/-- Then a chunk of it is filled and logged. -/
theorem quiet_filled (hD : StoreAt D) (s : NodeMem) (m m' : Mem) {a c n : ℕ} (ha : D+128 ≤ a)
    (hend : a+24 ≤ 2^40) (hn : 1 ≤ n) (hc : D+128 ≤ c) (hcend : c+n ≤ 2^40) :
    Quiet D s (wrapLogWrite { wrapLogWrite { s with rw := m } a sizeofAllocator with rw := m' }
      c n) :=
  ((quiet_allocator hD s m ha hend).trans (quiet_rw D _ m')).trans
    (quiet_wrapLogWrite hD _ c n hn hc hcend)

/-- The key gets a chunk of its own, which is logged without the terminator. -/
theorem allocKey_spec (hD : StoreAt D) (h : KvHeap hash D s.rw ks nk free nv) {key : List ℕ}
    (hkey : FitsIn keySize key) (hp : s.get (s.get (D+8)) ≠ 0) :
    (allocKey s D key).1 = (keyArena D).chunk nk ∧
    KvHeap hash D (allocKey s D key).2.rw ks (nk+1) free nv ∧
    cString (allocKey s D key).2.rw ((keyArena D).chunk nk) = key ∧
    (∀ x, x < D+2*regionSize ∨ D+3*regionSize ≤ x → (allocKey s D key).2.rw x = s.rw x) ∧
    (key ≠ [] → Quiet D s (allocKey s D key).2) := by
  have hR := regionSize_eq
  have hin := hD.inside
  obtain ⟨hlen, hbytes⟩ := hkey
  simp only [keySize] at hlen
  have hbase : (keyArena D).base = D+2*regionSize := rfl
  have hcell : get64 s.rw (D+8) = (keyArena D).base := h.cells.keys
  obtain ⟨fk, hkeys⟩ := h.keys
  obtain ⟨fv, hvals⟩ := h.vals
  rw [NodeMem.get, NodeMem.get, hcell] at hp
  -- keys are never given back, so the chunk is the next one of the arena
  obtain ⟨c, free', b', fk', hr, hinv, hal⟩ := alloc_spec (key_wf hD) hkeys.arena hp
  obtain ⟨rfl, rfl, rfl⟩ := hal.fresh rfl
  have hroom := hinv.fits
  rw [key_stop, key_chunk] at hroom
  have hc := key_chunk D c
  generalize hm1 : (allocAllocator s.rw (keyArena D).base).2 = m1 at hinv hal
  have hfull : (key ++ [0]).length = key.length+1 := by simp
  have hout1 := hal.outside
  rw [key_stop] at hout1
  generalize hm2 : store m1 ((keyArena D).chunk c) (key ++ [0]) = m2
  have hout (x : ℕ) (hx : x < D+2*regionSize ∨ D+3*regionSize ≤ x) : m2 x = s.rw x := by
    rw [← hm2, store, if_neg (by omega)]
    exact hout1 x hx
  obtain ⟨hstr, hend⟩ : cString m2 ((keyArena D).chunk c) = key ∧
      m2 ((keyArena D).chunk c+key.length) = 0 := by
    rw [← hm2]
    exact cstr_store m1 _ (fun b hb => (hbytes b hb).1.ne') (by rw [kvFuel_succ]; omega)
  -- the new chunk lies behind all keys in use
  have hold (i : ℕ) (hi : i < c) :
      Same s.rw m2 ((keyArena D).chunk i) ((keyArena D).chunk i+64) := by
    intro x h1 h2
    have hi' := key_chunk D i
    have hm : m1 x = s.rw x := by
      apply hal.chunks
      · omega
      · rw [key_chunk D (c+1)]
        omega
    rw [← hm2, store, if_neg (by omega), hm]
  have heq : allocKey s D key = ((keyArena D).chunk c,
      wrapLogWrite { wrapLogWrite { s with rw := m1 } (D+2*regionSize) sizeofAllocator with
        rw := m2 } ((keyArena D).chunk c) key.length) := by
    -- the allocator's address is read again for the log call, from the changed memory
    have hcell1 : get64 m1 (D+8) = D+2*regionSize := by
      rw [get64_congr (same_of_outside hout1 (by omega))]
      exact hcell
    unfold allocKey
    simp only [NodeMem.alloc, NodeMem.get, hcell, hr, hm1, hcell1, wrapLogWrite_rw, hm2, hstr]
  have hkeys' : Keys D m2 (c+1) fk' := by
    refine ⟨?_, ?_⟩
    · have hfits : (keyArena D).chunk c+(key ++ [0]).length ≤
          (keyArena D).chunk c+(keyArena D).size := by
        rw [hfull]
        simp only [keyArena, keySize]
        omega
      have hfill := hinv.fill (key_wf hD) hal.used le_rfl hfits
      rw [hm2] at hfill
      exact hfill
    · intro i hi
      by_cases hic : i = c
      · rw [hic]
        exact ⟨key.length, hlen, hend⟩
      · obtain ⟨j, hj, hnul⟩ := hkeys.ended i (by omega)
        refine ⟨j, hj, ?_⟩
        simp only [keySize] at hj
        rw [hold i (by omega) _ (by omega) (by omega), hnul]
  rw [heq]
  simp only [wrapLogWrite_rw]
  refine ⟨trivial, ?_, hstr, hout, ?_⟩
  · apply h.frame hD (same_of_outside hout (by omega)) (by omega) hold ⟨fk', hkeys'⟩
    · exact ⟨fv, vals_congr hD hvals (same_of_outside hout (by omega))⟩
    · exact fun c' hc' => hc'
  · -- an empty key would make the second log call one of length 0
    intro hne
    have hpos : 1 ≤ key.length := List.length_pos_iff.mpr hne
    exact quiet_filled hD s m1 m2 (by omega) (by omega) hpos (by omega) (by omega)

/-- The value gets a chunk that no entry leads to. -/
theorem allocVal_spec (hD : StoreAt D) (h : KvHeap hash D s.rw ks nk free nv) {val : List ℕ}
    (hval : val.length < valueSize) (hp : s.get (s.get (D+16)) ≠ 0) :
    ∃ c free' nv', (allocVal s D val).1 = (valArena D).chunk c ∧
    KvHeap hash D (allocVal s D val).2.rw ks nk free' nv' ∧ Arena.Used free' nv' c ∧
    nv'+free.length = nv+free'.length+1 ∧
    (∀ e < ks.length,
      get64 (allocVal s D val).2.rw ((entryArena D).chunk e+8) ≠ (valArena D).chunk c) ∧
    (∀ x, x < D+3*regionSize ∨ D+4*regionSize ≤ x → (allocVal s D val).2.rw x = s.rw x) ∧
    (val ≠ [] → Quiet D s (allocVal s D val).2) := by
  have hR := regionSize_eq
  have hin := hD.inside
  simp only [valueSize] at hval
  have hbase : (valArena D).base = D+3*regionSize := rfl
  have hcell : get64 s.rw (D+16) = (valArena D).base := h.cells.vals
  obtain ⟨fe, hentries⟩ := h.entries
  obtain ⟨fk, hkeys⟩ := h.keys
  obtain ⟨fv, hvals⟩ := h.vals
  have hkfits := hkeys.fits
  rw [NodeMem.get, NodeMem.get, hcell] at hp
  -- the chunk is one given back, if there is any
  obtain ⟨c, free', nv', fv', hr, hinv, hal⟩ := alloc_spec (val_wf hD) hvals hp
  have hroom := hinv.fits
  have hused := chunk_le (valArena D) hal.used.1
  rw [val_stop] at hroom
  have hc := val_chunk D c
  have hsize : (valArena D).size = 256 := rfl
  generalize hm1 : (allocAllocator s.rw (valArena D).base).2 = m1 at hinv hal
  have hout1 := hal.outside
  rw [val_stop] at hout1
  generalize hm2 : store m1 ((valArena D).chunk c) val = m2
  have hout (x : ℕ) (hx : x < D+3*regionSize ∨ D+4*regionSize ≤ x) : m2 x = s.rw x := by
    rw [← hm2, store, if_neg (by omega)]
    exact hout1 x hx
  have heq : allocVal s D val = ((valArena D).chunk c,
      wrapLogWrite { wrapLogWrite { s with rw := m1 } (D+3*regionSize) sizeofAllocator with
        rw := m2 } ((valArena D).chunk c) val.length) := by
    have hcell1 : get64 m1 (D+16) = D+3*regionSize := by
      rw [get64_congr (same_of_outside hout1 (by omega))]
      exact hcell
    unfold allocVal
    simp only [NodeMem.alloc, NodeMem.get, hcell, hr, hm1, hcell1, wrapLogWrite_rw, hm2]
  have hentries' := hentries.congr hD (same_of_outside hout (by omega))
  rw [heq]
  simp only [wrapLogWrite_rw]
  refine ⟨c, free', nv', rfl, ?_, hal.used, hal.count, ?_, hout, ?_⟩
  · apply h.frame hD (same_of_outside hout (by omega)) le_rfl
    · intro c' hc'
      have := key_chunk D c'
      exact same_of_outside hout (by omega)
    · exact ⟨fk, hkeys.congr hD (same_of_outside hout (by omega))⟩
    · refine ⟨fv', ?_⟩
      have hfill := hinv.fill (val_wf hD) hal.used le_rfl
        (show (valArena D).chunk c+val.length ≤ (valArena D).chunk c+(valArena D).size by omega)
      rw [hm2] at hfill
      exact hfill
    · exact fun c' hc' => (hal.stays c' hc').2
  · -- an entry leads to a chunk in use, and the new one was not
    intro e he hsame
    obtain ⟨c', hc', hcell'⟩ := hentries'.val e he
    have hc'' := val_chunk D c'
    have h1 : (valArena D).chunk c' = (valArena D).chunk c := hcell'.symm.trans hsame
    exact (hal.stays c' hc').1 (by omega)
  · intro hne
    have hpos : 1 ≤ val.length := List.length_pos_iff.mpr hne
    exact quiet_filled hD s m1 m2 (by omega) (by omega) hpos (by omega) (by omega)

end

section
variable {hash : List ℕ → ℕ} {D nk nv : ℕ} {m : Mem} {free : List ℕ} {ks : List (List ℕ)}

/-- The loop over a chain looks its entries up one after the other. -/
theorem findChain_eq {es : List ℕ} {p : ℕ} (h : Chain D m es p) (test : ℕ → Bool) (fuel : ℕ)
    (hfuel : es.length < fuel) :
    findChain m test fuel p =
      (es.find? fun e => test (get64 m ((entryArena D).chunk e))).map (entryArena D).chunk := by
  induction es generalizing p fuel with
  | nil =>
    obtain ⟨fuel, rfl⟩ : ∃ k, fuel = k+1 := ⟨fuel-1, by simp at hfuel; omega⟩
    have h0 : p = 0 := h
    rw [findChain, if_pos h0]
    rfl
  | cons e es ih =>
    rw [List.length_cons] at hfuel
    obtain ⟨fuel, rfl⟩ : ∃ k, fuel = k+1 := ⟨fuel-1, by omega⟩
    obtain ⟨rfl, hrest⟩ := h
    have hne : (entryArena D).chunk e ≠ 0 := by
      rw [entry_chunk]
      omega
    rw [findChain, if_neg hne, List.find?_cons]
    cases htest : test (get64 m ((entryArena D).chunk e)) with
    | true => rfl
    | false => exact ih hrest fuel (by omega)

theorem slotOf_lt (hash : List ℕ → ℕ) (key : List ℕ) : slotOf hash key < 2^24 :=
  lt_of_le_of_lt Nat.and_le_right (by norm_num)

theorem tableIndex_eq {n : ℕ} (h : DictCells D m n) (key : List ℕ) :
    tableIndex m (D+32) (hash key) = slotOf hash key := by
  rw [tableIndex, Nat.add_assoc, h.mask, slotOf]

theorem tableSlot_eq {n : ℕ} (h : DictCells D m n) (index : ℕ) :
    tableSlot m (D+32) index = D+128+8*index := by
  rw [tableSlot, Nat.add_assoc, h.table]

theorem KvHeap.search (h : KvHeap hash D m ks nk free nv) (key : List ℕ) (test : ℕ → Bool)
    (htest : ∀ e k, ks[e]? = some k →
      (test (get64 m ((entryArena D).chunk e)) = true ↔ k = key)) :
    (∀ e, ks[e]? = some key → findChain m test kvFuel (get64 m (D+128+8*slotOf hash key)) =
      some ((entryArena D).chunk e)) ∧
    (key ∉ ks → findChain m test kvFuel (get64 m (D+128+8*slotOf hash key)) = none) := by
  obtain ⟨chains, hchains⟩ := h.chains
  obtain ⟨fe, hentries⟩ := h.entries
  have hslot := slotOf_lt hash key
  have hfits := hentries.fits
  have hR := regionSize_eq
  have hlen : (chains (slotOf hash key)).length < kvFuel := by
    have hle := length_le_of_lt (hchains.nodup _ hslot) fun e he => hchains.lt_length hslot he
    rw [kvFuel_succ]
    omega
  rw [findChain_eq (hchains.linked _ hslot) test kvFuel hlen]
  -- an entry of the chain that passes the test has the key
  have hpass (e : ℕ) (he : e ∈ chains (slotOf hash key))
      (ht : test (get64 m ((entryArena D).chunk e)) = true) : ks[e]? = some key := by
    obtain ⟨k, hk, -⟩ := (hchains.mem _ hslot e).mp he
    rw [hk, (htest e k hk).mp ht]
  constructor
  · intro e he
    have hin : e ∈ chains (slotOf hash key) := (hchains.mem _ hslot e).mpr ⟨key, he, rfl⟩
    cases hfind : (chains (slotOf hash key)).find?
        fun e => test (get64 m ((entryArena D).chunk e)) with
    | none =>
      have hfail := List.find?_eq_none.mp hfind e hin
      exact absurd ((htest e key he).mpr rfl) hfail
    | some e' =>
      have hp := List.find?_some (p := fun e => test (get64 m ((entryArena D).chunk e))) hfind
      have he' := hpass e' (List.mem_of_find?_eq_some hfind) hp
      have hsame : e' = e := (List.getElem?_inj (List.getElem?_eq_some_iff.mp he').1 h.nodup).mp
        (he'.trans he.symm)
      rw [hsame]
      rfl
  · intro hnone
    have hfind : (chains (slotOf hash key)).find?
        (fun e => test (get64 m ((entryArena D).chunk e))) = none := by
      apply List.find?_eq_none.mpr
      intro e he ht
      exact hnone (List.mem_of_getElem? (hpass e he ht))
    rw [hfind]
    rfl

theorem KvHeap.dictFind_spec (h : KvHeap hash D m ks nk free nv) (key : List ℕ) :
    (∀ e, ks[e]? = some key → dictFind hash m (D+32) key = some ((entryArena D).chunk e)) ∧
    (key ∉ ks → dictFind hash m (D+32) key = none) := by
  obtain ⟨fe, hentries⟩ := h.entries
  have hfits := hentries.fits
  have hR := regionSize_eq
  have hsearch := h.search key (fun k => cString m k = key)
    (by intro e k hk; rw [decide_eq_true_eq, h.labels e k hk])
  have hused : (get64 m (D+32+40)+get64 m (D+32+72))%2^64 = ks.length := by
    rw [Nat.add_assoc, Nat.add_assoc, h.cells.used, h.cells.used1]
    exact Nat.mod_eq_of_lt (by omega)
  unfold dictFind
  rw [hused, tableIndex_eq h.cells, tableSlot_eq h.cells]
  constructor
  · intro e he
    have hlt := (List.getElem?_eq_some_iff.mp he).1
    rw [if_neg (by omega)]
    exact hsearch.1 e he
  · intro hnone
    split_ifs
    · rfl
    · exact hsearch.2 hnone

/-- `_dictKeyIndex` for a key that has been copied to the chunk `c`. -/
theorem KvHeap.dictKeyIndex_spec (h : KvHeap hash D m ks nk free nv) {c : ℕ} {key : List ℕ}
    (hkey : cString m ((keyArena D).chunk c) = key) :
    (∀ e, ks[e]? = some key →
      dictKeyIndex hash m (D+32) ((keyArena D).chunk c) = .existing ((entryArena D).chunk e)) ∧
    (key ∉ ks → dictKeyIndex hash m (D+32) ((keyArena D).chunk c) = .free (slotOf hash key)) := by
  obtain ⟨fe, hentries⟩ := h.entries
  have hfits := hentries.fits
  have hR := regionSize_eq
  have hsearch := h.search key
    (fun k => (keyArena D).chunk c = k || cString m ((keyArena D).chunk c) = cString m k) (by
      intro e k hk
      have hlabel := h.labels e k hk
      rw [Bool.or_eq_true, decide_eq_true_eq, decide_eq_true_eq, hlabel, hkey]
      constructor
      · rintro (hp | hs)
        · rw [← hp, hkey] at hlabel
          exact hlabel.symm
        · exact hs.symm
      · exact fun hs => Or.inr hs.symm)
  have hroom : ¬(get64 m (D+32+24) = 0 ∨ get64 m (D+32+40) ≥ get64 m (D+32+24)) := by
    rw [Nat.add_assoc, Nat.add_assoc, h.cells.size, h.cells.used]
    omega
  unfold dictKeyIndex
  rw [if_neg hroom]
  simp only
  rw [hkey, tableIndex_eq h.cells, tableSlot_eq h.cells]
  rw [hkey] at hsearch
  constructor
  · intro e he
    rw [hsearch.1 e he]
  · intro hnone
    rw [hsearch.2 hnone]

end

section
variable {hash : List ℕ → ℕ} {D nk nv : ℕ} {s : NodeMem} {free : List ℕ} {ks : List (List ℕ)}

/-- The writes of `dictAddRaw` and `dictSetVal` after an entry `n` was allocated in `m1`. -/
def insertWrites (D n slot next key val : ℕ) (m1 : Mem) : Mem :=
  let e := (entryArena D).chunk n
  set64 (set64 (set64 (set64 (set64 m1 (e+16) next) slot e) (D+72) (n+1)) e key) (e+8) val

theorem insertWrites_get (D n slot next key val : ℕ) (m1 : Mem)
    (hslot : D+128 ≤ slot) (hslot' : slot+8 ≤ D+regionSize)
    (hnext : next < 2^64) (hkey : key < 2^64) (hval : val < 2^64)
    (hn : (entryArena D).chunk n+24 < 2^64) :
    get64 (insertWrites D n slot next key val m1) slot = (entryArena D).chunk n ∧
    get64 (insertWrites D n slot next key val m1) (D+72) = n+1 ∧
    get64 (insertWrites D n slot next key val m1) ((entryArena D).chunk n) = key ∧
    get64 (insertWrites D n slot next key val m1) ((entryArena D).chunk n+8) = val ∧
    get64 (insertWrites D n slot next key val m1) ((entryArena D).chunk n+16) = next ∧
    ∀ a, a+8 ≤ (entryArena D).chunk n ∨ (entryArena D).chunk n+24 ≤ a →
      a+8 ≤ slot ∨ slot+8 ≤ a → a+8 ≤ D+72 ∨ D+80 ≤ a →
      get64 (insertWrites D n slot next key val m1) a = get64 m1 a := by
  have he := entry_chunk D n
  simp only [insertWrites]
  refine ⟨?_, ?_, ?_, ?_, ?_, ?_⟩
  · rw [get64_set64_ne _ _ (by omega), get64_set64_ne _ _ (by omega),
      get64_set64_ne _ _ (by omega), get64_set64 _ _ (by omega)]
  · rw [get64_set64_ne _ _ (by omega), get64_set64_ne _ _ (by omega), get64_set64 _ _ (by omega)]
  · rw [get64_set64_ne _ _ (by omega), get64_set64 _ _ (by omega)]
  · rw [get64_set64 _ _ (by omega)]
  · rw [get64_set64_ne _ _ (by omega), get64_set64_ne _ _ (by omega),
      get64_set64_ne _ _ (by omega), get64_set64_ne _ _ (by omega), get64_set64 _ _ (by omega)]
  · intro a h1 h2 h3
    rw [get64_set64_ne _ _ (by omega), get64_set64_ne _ _ (by omega),
      get64_set64_ne _ _ (by omega), get64_set64_ne _ _ (by omega), get64_set64_ne _ _ (by omega)]

theorem insertWrites_same (D n slot next key val b : ℕ) (m1 : Mem) (hslot' : slot+8 ≤ D+regionSize)
    (hn : (entryArena D).chunk n+24 ≤ D+2*regionSize) :
    Same m1 (insertWrites D n slot next key val m1) (D+2*regionSize) b := by
  have hR := regionSize_eq
  simp only [insertWrites]
  have h1 : Same m1 (set64 m1 ((entryArena D).chunk n+16) next) (D+2*regionSize) b :=
    same_set64 _ _ (by omega)
  have h2 := h1.trans (same_set64 _ ((entryArena D).chunk n) (c := slot) (by omega))
  have h3 := h2.trans (same_set64 _ (n+1) (c := D+72) (by omega))
  have h4 := h3.trans (same_set64 _ key (c := (entryArena D).chunk n) (by omega))
  exact h4.trans (same_set64 _ val (c := (entryArena D).chunk n+8) (by omega))

theorem insertWrites_arena (D n slot next key val : ℕ) {b : ℕ} {m1 : Mem} {full : Bool} (hD : StoreAt D)
    (hslot' : slot+8 ≤ D+regionSize) (h : (entryArena D).Inv m1 [] b full) (hn : n < b) :
    (entryArena D).Inv (insertWrites D n slot next key val m1) [] b full := by
  have hR := regionSize_eq
  have hbase : (entryArena D).base = D+regionSize := rfl
  have hused : Arena.Used [] b n := ⟨hn, List.not_mem_nil⟩
  have hsize : (entryArena D).size = 24 := rfl
  simp only [insertWrites]
  have h1 := h.set (entry_wf hD) hused next (a := (entryArena D).chunk n+16) (by omega) (by omega)
  have h2 := h1.congr (entry_wf hD) (same_set64 _ ((entryArena D).chunk n) (c := slot) (by omega))
  have h3 := h2.congr (entry_wf hD) (same_set64 _ (n+1) (c := D+72) (by omega))
  have h4 := h3.set (entry_wf hD) hused key le_rfl (by omega)
  exact h4.set (entry_wf hD) hused val (by omega) (by omega)

/-- A pointer to a chain is NULL or leads to an entry. -/
theorem Chains.ptr_le {m : Mem} {chains : ℕ → List ℕ} (h : Chains hash D m ks chains) {i : ℕ}
    (hi : i < 2^24) : get64 m (D+128+8*i) ≤ (entryArena D).chunk ks.length := by
  have hlinked := h.linked i hi
  cases hes : chains i with
  | nil =>
    rw [hes] at hlinked
    rw [show get64 m (D+128+8*i) = 0 from hlinked]
    exact Nat.zero_le _
  | cons e es =>
    rw [hes] at hlinked
    rw [hlinked.1]
    exact chunk_mono _ (h.lt_length hi (hes ▸ List.mem_cons_self)).le

/-- Values that differ still do when one of them is replaced by one that no other entry has. -/
theorem inj_replace (v v' : ℕ → ℕ) {n e x : ℕ} (hnew : v' e = x)
    (hold : ∀ i < n, i ≠ e → v' i = v i ∧ v i ≠ x)
    (hinj : ∀ i < n, i ≠ e → ∀ j < n, j ≠ e → v i = v j → i = j) :
    ∀ i < n, ∀ j < n, v' i = v' j → i = j := by
  intro i hi j hj hsame
  by_cases hie : i = e
  · by_cases hje : j = e
    · rw [hie, hje]
    · rw [hie, hnew, (hold j hj hje).1] at hsame
      exact absurd hsame.symm (hold j hj hje).2
  · by_cases hje : j = e
    · rw [hje, hnew, (hold i hi hie).1] at hsame
      exact absurd hsame (hold i hi hie).2
    · rw [(hold i hi hie).1, (hold j hj hje).1] at hsame
      exact hinj i hi hie j hj hje hsame

/-- One more entry, with a value that no other entry has. -/
theorem Entries.push {m m' : Mem} {n c cv : ℕ} {used : ℕ → Prop} {fe full : Bool}
    (h : Entries D m n nk used fe) (harena : (entryArena D).Inv m' [] (n+1) full)
    (hkeys : ∀ e < n, get64 m' ((entryArena D).chunk e) = get64 m ((entryArena D).chunk e))
    (hvals : ∀ e < n, get64 m' ((entryArena D).chunk e+8) = get64 m ((entryArena D).chunk e+8))
    (hc : c < nk) (hkey : get64 m' ((entryArena D).chunk n) = (keyArena D).chunk c)
    (hcv : used cv) (hval : get64 m' ((entryArena D).chunk n+8) = (valArena D).chunk cv)
    (hfresh : ∀ e < n, get64 m ((entryArena D).chunk e+8) ≠ (valArena D).chunk cv) :
    Entries D m' (n+1) nk used full := by
  refine ⟨harena, ?_, ?_, ?_⟩
  · intro e hlt
    by_cases hen : e = n
    · rw [hen]
      exact ⟨c, hc, hkey⟩
    · rw [hkeys e (by omega)]
      exact h.key e (by omega)
  · intro e hlt
    by_cases hen : e = n
    · rw [hen]
      exact ⟨cv, hcv, hval⟩
    · rw [hvals e (by omega)]
      exact h.val e (by omega)
  · apply inj_replace (fun e => get64 m ((entryArena D).chunk e+8))
      (fun e => get64 m' ((entryArena D).chunk e+8)) hval
    · intro e hlt hne
      exact ⟨hvals e (by omega), hfresh e (by omega)⟩
    · intro e hlt hne e' hlt' hne'
      exact h.inj e (by omega) e' (by omega)

theorem Entries.replace {m m' : Mem} {n e c0 cv : ℕ} {used used' : ℕ → Prop} {fe full : Bool}
    (h : Entries D m n nk used fe) (harena : (entryArena D).Inv m' [] n full) (he : e < n)
    (hkeys : ∀ i < n, get64 m' ((entryArena D).chunk i) = get64 m ((entryArena D).chunk i))
    (hvals : ∀ i < n, i ≠ e →
      get64 m' ((entryArena D).chunk i+8) = get64 m ((entryArena D).chunk i+8))
    (hc0 : get64 m ((entryArena D).chunk e+8) = (valArena D).chunk c0)
    (hval : get64 m' ((entryArena D).chunk e+8) = (valArena D).chunk cv) (hcv : used' cv)
    (hused : ∀ c, used c → c ≠ c0 → used' c)
    (hfresh : ∀ i < n, get64 m ((entryArena D).chunk i+8) ≠ (valArena D).chunk cv) :
    Entries D m' n nk used' full := by
  refine ⟨harena, ?_, ?_, ?_⟩
  · intro i hi
    rw [hkeys i hi]
    exact h.key i hi
  · intro i hi
    by_cases hie : i = e
    · rw [hie]
      exact ⟨cv, hcv, hval⟩
    · rw [hvals i hi hie]
      obtain ⟨c, hc, hcell⟩ := h.val i hi
      refine ⟨c, hused c hc ?_, hcell⟩
      rintro rfl
      exact hie (h.inj i hi e he (hcell.trans hc0.symm))
  · apply inj_replace (fun i => get64 m ((entryArena D).chunk i+8))
      (fun i => get64 m' ((entryArena D).chunk i+8)) hval
    · intro i hi hie
      exact ⟨hvals i hi hie, hfresh i hi⟩
    · intro i hi _ j hj _
      exact h.inj i hi j hj

/-- The chains after entry `ks.length` was put in front of the chain of its key. -/
theorem Chains.push {m m' : Mem} {chains : ℕ → List ℕ} {key : List ℕ}
    (h : Chains hash D m ks chains)
    (hslot : get64 m' (D+128+8*slotOf hash key) = (entryArena D).chunk ks.length)
    (hnext : get64 m' ((entryArena D).chunk ks.length+16) = get64 m (D+128+8*slotOf hash key))
    (hslots : ∀ i < 2^24, i ≠ slotOf hash key → get64 m' (D+128+8*i) = get64 m (D+128+8*i))
    (hnexts : ∀ e < ks.length,
      get64 m' ((entryArena D).chunk e+16) = get64 m ((entryArena D).chunk e+16)) :
    Chains hash D m' (ks ++ [key])
      (Function.update chains (slotOf hash key) (ks.length :: chains (slotOf hash key))) := by
  have hlt := slotOf_lt hash key
  have hold (i : ℕ) (hi : i < 2^24) : Chain D m' (chains i) (get64 m (D+128+8*i)) :=
    (h.linked i hi).congr fun e he => hnexts e (h.lt_length hi he)
  have hnot (i : ℕ) (hi : i < 2^24) : ks.length ∉ chains i :=
    fun hm => absurd (h.lt_length hi hm) (lt_irrefl _)
  -- an entry is one of the old ones or the new one
  have hget (e : ℕ) (k : List ℕ) : (ks ++ [key])[e]? = some k ↔
      ks[e]? = some k ∨ e = ks.length ∧ k = key := by
    rcases Nat.lt_trichotomy e ks.length with he | he | he
    · rw [List.getElem?_append_left he]
      exact ⟨Or.inl, fun h => h.resolve_right fun h => by omega⟩
    · rw [he, List.getElem?_append_right le_rfl, List.getElem?_eq_none le_rfl]
      simp [eq_comm]
    · rw [List.getElem?_append_right he.le, List.getElem?_eq_none he.le,
        List.getElem?_eq_none (by simp; omega)]
      simp
      omega
  refine ⟨?_, ?_, ?_⟩
  · intro i hi
    by_cases his : i = slotOf hash key
    · rw [his, Function.update_self, hslot]
      refine ⟨rfl, ?_⟩
      rw [hnext]
      exact hold _ hlt
    · rw [Function.update_of_ne his, hslots i hi his]
      exact hold i hi
  · intro i hi
    by_cases his : i = slotOf hash key
    · rw [his, Function.update_self]
      exact List.nodup_cons.mpr ⟨hnot _ hlt, h.nodup _ hlt⟩
    · rw [Function.update_of_ne his]
      exact h.nodup i hi
  · intro i hi e
    simp only [hget]
    by_cases his : i = slotOf hash key
    · rw [his, Function.update_self, List.mem_cons, h.mem _ hlt e]
      constructor
      · rintro (rfl | ⟨k, hk, hki⟩)
        · exact ⟨key, Or.inr ⟨rfl, rfl⟩, rfl⟩
        · exact ⟨k, Or.inl hk, hki⟩
      · rintro ⟨k, hk | ⟨rfl, rfl⟩, hki⟩
        · exact Or.inr ⟨k, hk, hki⟩
        · exact Or.inl rfl
    · rw [Function.update_of_ne his, h.mem i hi e]
      constructor
      · rintro ⟨k, hk, hki⟩
        exact ⟨k, Or.inl hk, hki⟩
      · rintro ⟨k, hk | ⟨rfl, rfl⟩, hki⟩
        · exact ⟨k, hk, hki⟩
        · exact absurd hki.symm his

theorem KvHeap.inserted {m m1 : Mem} (hD : StoreAt D) (h : KvHeap hash D m ks nk free nv)
    {full : Bool} (hinv : (entryArena D).Inv m1 [] (ks.length+1) full)
    (hal : (entryArena D).Allocates m m1 [] ks.length ks.length [] (ks.length+1)) {c cv : ℕ}
    {key : List ℕ} (hc : c < nk) (hkey : cString m ((keyArena D).chunk c) = key)
    (hnew : key ∉ ks) (hcv : Arena.Used free nv cv)
    (hfresh : ∀ e < ks.length, get64 m ((entryArena D).chunk e+8) ≠ (valArena D).chunk cv) :
    KvHeap hash D (insertWrites D ks.length (D+128+8*slotOf hash key)
      (get64 m (D+128+8*slotOf hash key)) ((keyArena D).chunk c) ((valArena D).chunk cv) m1)
      (ks ++ [key]) nk free nv := by
  have hR := regionSize_eq
  have hin := hD.inside
  have hbase : (entryArena D).base = D+regionSize := rfl
  obtain ⟨fe, hentries⟩ := h.entries
  obtain ⟨fk, hkeys⟩ := h.keys
  obtain ⟨fv, hvals⟩ := h.vals
  obtain ⟨chains, hchains⟩ := h.chains
  have hkfits := hkeys.fits
  have hvfits := hvals.fits
  have hvused := chunk_le (valArena D) hcv.1
  rw [val_stop] at hvfits
  have hkc := key_chunk D c
  have hslot := slotOf_lt hash key
  have hroom := hinv.fits
  rw [entry_stop, entry_chunk] at hroom
  have he := entry_chunk D ks.length
  have hout1 := hal.outside
  rw [entry_stop] at hout1
  have hptr := hchains.ptr_le hslot
  -- from here on only what the writes do to single cells matters
  generalize hslotA : D+128+8*slotOf hash key = slot at hptr ⊢
  have hget := insertWrites_get D ks.length slot (get64 m slot) ((keyArena D).chunk c)
    ((valArena D).chunk cv) m1 (by omega) (by omega) (by omega) (by omega) (by omega) (by omega)
  have harena := insertWrites_arena D ks.length slot (get64 m slot) ((keyArena D).chunk c)
    ((valArena D).chunk cv) hD (by omega) hinv (Nat.lt_succ_self _)
  have hwrites := insertWrites_same D ks.length slot (get64 m slot) ((keyArena D).chunk c)
    ((valArena D).chunk cv) (D+4*regionSize) m1 (by omega) (by omega)
  generalize insertWrites D ks.length slot (get64 m slot) ((keyArena D).chunk c)
    ((valArena D).chunk cv) m1 = m' at hget harena hwrites ⊢
  obtain ⟨gslot, gused, gkey, gval, gnext, grest⟩ := hget
  -- the keys and values lie behind the table and the entries
  have hbehind : Same m m' (D+2*regionSize) (D+4*regionSize) :=
    (same_of_outside hout1 (Or.inr le_rfl)).trans hwrites
  have hcell (a : ℕ) (h1 : D ≤ a) (h2 : a+8 ≤ D+128) (h3 : a+8 ≤ D+72 ∨ D+80 ≤ a) :
      get64 m' a = get64 m a := by
    rw [grest a (by omega) (by omega) h3]
    exact get64_congr (same_of_outside hout1 (by omega))
  have hold (e : ℕ) (hlt : e < ks.length) (k : ℕ) (hk : k ≤ 16) :
      get64 m' ((entryArena D).chunk e+k) = get64 m ((entryArena D).chunk e+k) := by
    have he' := entry_chunk D e
    rw [grest _ (by omega) (by omega) (by omega)]
    refine get64_congr (hal.chunks.mono (by omega) ?_)
    rw [entry_chunk D (ks.length+1)]
    omega
  have hold0 (e : ℕ) (hlt : e < ks.length) :
      get64 m' ((entryArena D).chunk e) = get64 m ((entryArena D).chunk e) := by
    have h0 := hold e hlt 0 (Nat.zero_le _)
    rwa [Nat.add_zero] at h0
  have hstring (c : ℕ) (hc : c < nk) :
      cString m' ((keyArena D).chunk c) = cString m ((keyArena D).chunk c) := by
    have := key_chunk D c
    exact hkeys.cString_congr hc (hbehind.mono (by omega) (by omega))
  refine ⟨?_, ⟨full, ?_⟩, ?_, ?_, ?_, ?_, ?_⟩
  · have hcells := h.cells
    rw [List.length_append, List.length_singleton]
    refine ⟨?_, ?_, ?_, ?_, ?_, ?_, ?_, gused, ?_⟩ <;>
      rw [hcell _ (by omega) (by omega) (by omega)]
    exacts [hcells.entries, hcells.keys, hcells.vals, hcells.dict, hcells.table, hcells.size,
      hcells.mask, hcells.used1]
  · rw [List.length_append, List.length_singleton]
    exact hentries.push harena hold0 (fun e hlt => hold e hlt 8 (by norm_num)) hc gkey hcv gval
      hfresh
  · exact ⟨fk, hkeys.congr hD (hbehind.mono le_rfl (by omega))⟩
  · exact ⟨fv, vals_congr hD hvals (hbehind.mono (by omega) le_rfl)⟩
  · -- the new entry leads the chain of its slot
    refine ⟨_, hchains.push (hslotA ▸ gslot) ?_ ?_ ?_⟩
    · rw [hslotA, gnext]
    · intro i hi hne
      rw [grest _ (by omega) (by omega) (by omega)]
      exact get64_congr (same_of_outside hout1 (by omega))
    · intro e hlt
      exact hold e hlt 16 le_rfl
  · intro e k hk
    by_cases hen : e = ks.length
    · rw [hen, List.getElem?_append_right le_rfl, Nat.sub_self] at hk
      rw [hen, gkey, hstring c hc, hkey]
      exact Option.some.inj hk
    · have hlt := (List.getElem?_eq_some_iff.mp hk).1
      rw [List.length_append, List.length_singleton] at hlt
      rw [List.getElem?_append_left (by omega)] at hk
      obtain ⟨c', hc', hcell'⟩ := hentries.key e (by omega)
      have hlabel := h.labels e k hk
      rw [hcell'] at hlabel
      rw [hold0 e (by omega), hcell', hstring c' hc', hlabel]
  · rw [List.nodup_append]
    refine ⟨h.nodup, List.nodup_singleton key, ?_⟩
    intro k hk k' hk' heq
    rw [heq, List.mem_singleton.mp hk'] at hk
    exact hnew hk

/-- The new entry is the first of its chain. -/
theorem insert_spec (hD : StoreAt D) (h : KvHeap hash D s.rw ks nk free nv) {c cv : ℕ}
    {key : List ℕ} (hc : c < nk) (hkey : cString s.rw ((keyArena D).chunk c) = key)
    (hnew : key ∉ ks) (hcv : Arena.Used free nv cv)
    (hfresh : ∀ e < ks.length, get64 s.rw ((entryArena D).chunk e+8) ≠ (valArena D).chunk cv)
    (hp : s.get (s.get D) ≠ 0) {r : ℕ × NodeMem}
    (hr : r = dictInsert s D (D+32) ((keyArena D).chunk c) (slotOf hash key)) :
    KvHeap hash D (r.2.set (r.1+8) ((valArena D).chunk cv)).rw (ks ++ [key]) nk free nv ∧
    Quiet D s (r.2.set (r.1+8) ((valArena D).chunk cv)) := by
  have hR := regionSize_eq
  have hin := hD.inside
  have hbase : (entryArena D).base = D+regionSize := rfl
  have hcell : get64 s.rw D = (entryArena D).base := h.cells.entries
  obtain ⟨fe, hentries⟩ := h.entries
  have hslot := slotOf_lt hash key
  rw [NodeMem.get, NodeMem.get, hcell] at hp
  obtain ⟨n, free', b', fe', hal1, hinv, hal⟩ := alloc_spec (entry_wf hD) hentries.arena hp
  obtain ⟨rfl, rfl, rfl⟩ := hal.fresh rfl
  have hroom := hinv.fits
  rw [entry_stop, entry_chunk] at hroom
  have he := entry_chunk D ks.length
  generalize hm1 : (allocAllocator s.rw (entryArena D).base).2 = m1 at hinv hal
  have hout1 := hal.outside
  rw [entry_stop] at hout1
  have hcells1 : DictCells D m1 ks.length := h.cells.congr (same_of_outside hout1 (by omega))
  -- `insertWrites` has the writes in the order of the code, with the value last
  have hfinal := h.inserted hD hinv hal hc hkey hnew hcv hfresh
  simp only [insertWrites] at hfinal
  generalize hslotA : D+128+8*slotOf hash key = slot at hfinal
  have hold1 : get64 m1 slot = get64 s.rw slot :=
    get64_congr (same_of_outside hout1 (by omega))
  generalize hm2 : set64 m1 ((entryArena D).chunk ks.length+16) (get64 s.rw slot) = m2 at hfinal
  generalize hm3 : set64 m2 slot ((entryArena D).chunk ks.length) = m3 at hfinal
  have hused3 : get64 m3 (D+72) = ks.length := by
    rw [← hm3, get64_set64_ne _ _ (by omega), ← hm2, get64_set64_ne _ _ (by omega), hcells1.used]
  generalize hm4 : set64 m3 (D+72) (ks.length+1) = m4 at hfinal
  generalize hm5 : set64 m4 ((entryArena D).chunk ks.length) ((keyArena D).chunk c) = m5 at hfinal
  have hreq : r.1 = (entryArena D).chunk ks.length ∧ r.2.rw = m5 ∧ Quiet D s r.2 := by
    have hd : D+32+40 = D+72 := by omega
    rw [hr]
    unfold dictInsert entryConstructor
    simp only [NodeMem.alloc, NodeMem.set, NodeMem.get, wrapLogWrite_rw, hcell, hm1, hal1,
      tableSlot_eq hcells1, hslotA, hold1, hm2, hm3, hd, hused3, hm4, hm5]
    refine ⟨trivial, trivial, ?_⟩
    -- the log calls: for the allocator, the entry and the slot of the table
    have h1 := quiet_allocator hD s m1 (a := (entryArena D).base) (by omega) (by omega)
    have h2 := h1.trans (quiet_wrapLogWrite hD _ ((entryArena D).chunk ks.length) sizeofEntry
      (by norm_num [sizeofEntry]) (by omega) (by simp only [sizeofEntry]; omega))
    have h3 := (h2.trans (quiet_rw D _ m2)).trans (quiet_rw D _ m3)
    have h4 := h3.trans (quiet_wrapLogWrite hD _ slot 8 (by norm_num) (by omega) (by omega))
    exact (h4.trans (quiet_rw D _ m4)).trans (quiet_rw D _ m5)
  obtain ⟨hr1, hr2, hquiet⟩ := hreq
  have hrw : (r.2.set (r.1+8) ((valArena D).chunk cv)).rw =
      set64 m5 ((entryArena D).chunk ks.length+8) ((valArena D).chunk cv) := by
    simp only [NodeMem.set, hr1, hr2]
  refine ⟨?_, hquiet.trans (quiet_rw D r.2 _)⟩
  rw [hrw]
  exact hfinal

/-- An entry gets another value, and its old one is given back. -/
theorem KvHeap.overwritten {m m1 m2 : Mem} (hD : StoreAt D) (h : KvHeap hash D m ks nk free nv)
    {e cv c0 : ℕ} (he : e < ks.length) (hcv : Arena.Used free nv cv)
    (hfresh : ∀ e < ks.length, get64 m ((entryArena D).chunk e+8) ≠ (valArena D).chunk cv)
    (hc0 : get64 m ((entryArena D).chunk e+8) = (valArena D).chunk c0)
    (hm1 : set64 m ((entryArena D).chunk e+8) ((valArena D).chunk cv) = m1)
    (hvals : ∃ full, (valArena D).Inv m2 (c0 :: free) nv full)
    (hout : ∀ x, x < D+3*regionSize ∨ D+4*regionSize ≤ x → m2 x = m1 x) :
    KvHeap hash D m2 ks nk (c0 :: free) nv := by
  have hR := regionSize_eq
  have hin := hD.inside
  obtain ⟨fe, hentries⟩ := h.entries
  obtain ⟨fk, hkeys⟩ := h.keys
  obtain ⟨chains, hchains⟩ := h.chains
  obtain ⟨fv, hvals0⟩ := h.vals
  have hfits := hentries.fits
  have hkfits := hkeys.fits
  have hvfits := hvals0.fits
  have hvused := chunk_le (valArena D) hcv.1
  rw [val_stop] at hvfits
  have hE := entry_chunk D e
  have hget1 (a : ℕ) (h1 : a+8 ≤ D+3*regionSize) : get64 m2 a = get64 m1 a :=
    get64_congr (same_of_outside hout (by omega))
  have hget (a : ℕ) (h1 : a+8 ≤ D+3*regionSize)
      (h2 : a+8 ≤ (entryArena D).chunk e+8 ∨ (entryArena D).chunk e+16 ≤ a) :
      get64 m2 a = get64 m a := by
    rw [hget1 a h1, ← hm1, get64_set64_ne _ _ (by omega)]
  have hnew : get64 m2 ((entryArena D).chunk e+8) = (valArena D).chunk cv := by
    rw [hget1 _ (by omega), ← hm1, get64_set64 _ _ (by omega)]
  have hother (e' : ℕ) (he' : e' < ks.length) (hne : e' ≠ e) :
      get64 m2 ((entryArena D).chunk e'+8) = get64 m ((entryArena D).chunk e'+8) := by
    have := entry_chunk D e'
    exact hget _ (by omega) (by omega)
  have hkeycell (e' : ℕ) (he' : e' < ks.length) :
      get64 m2 ((entryArena D).chunk e') = get64 m ((entryArena D).chunk e') := by
    have := entry_chunk D e'
    exact hget _ (by omega) (by omega)
  have hsame {a b : ℕ} (h1 : D+2*regionSize ≤ a) (h2 : b ≤ D+3*regionSize) : Same m m2 a b := by
    have hset : Same m m1 a b := by
      rw [← hm1]
      exact same_set64 _ _ (by omega)
    exact hset.trans (same_of_outside hout (by omega))
  -- the given back value is no longer in use, all others are
  have hused (c : ℕ) (hc : Arena.Used free nv c) (hne : c ≠ c0) :
      Arena.Used (c0 :: free) nv c := ⟨hc.1, fun hm => (List.mem_cons.mp hm).elim hne hc.2⟩
  have hne0 : cv ≠ c0 := by
    rintro rfl
    exact hfresh e he hc0
  have harena : (entryArena D).Inv m2 [] ks.length fe := by
    have hsize : (entryArena D).size = 24 := rfl
    have hstop := entry_stop D
    have h1 := hentries.arena.set (entry_wf hD) ⟨he, List.not_mem_nil⟩ ((valArena D).chunk cv)
      (a := (entryArena D).chunk e+8) (by omega) (by omega)
    rw [hm1] at h1
    exact h1.congr (entry_wf hD) (same_of_outside hout (by omega))
  refine ⟨?_, ⟨fe, hentries.replace harena he hkeycell hother hc0 hnew (hused cv hcv hne0) hused
    hfresh⟩, ⟨fk, hkeys.congr hD (hsame le_rfl le_rfl)⟩, hvals, ⟨chains, ?_⟩, ?_, h.nodup⟩
  · apply h.cells.congr
    have hset : Same m m1 D (D+128) := by
      rw [← hm1]
      exact same_set64 _ _ (by omega)
    exact hset.trans (same_of_outside hout (by omega))
  · apply hchains.congr
    · intro i hi
      exact hget _ (by omega) (by omega)
    · intro e' he'
      have := entry_chunk D e'
      exact hget _ (by omega) (by omega)
  · intro e' k hk
    have he' := (List.getElem?_eq_some_iff.mp hk).1
    obtain ⟨c, hc, hcell⟩ := hentries.key e' he'
    have hlabel := h.labels e' k hk
    have hkc := key_chunk D c
    rw [hcell] at hlabel
    rw [hkeycell e' he', hcell, hkeys.cString_congr hc (hsame (by omega) (by omega)), hlabel]

theorem overwrite_spec (hD : StoreAt D) (h : KvHeap hash D s.rw ks nk free nv) {e cv : ℕ}
    (he : e < ks.length) (hcv : Arena.Used free nv cv)
    (hfresh : ∀ e < ks.length, get64 s.rw ((entryArena D).chunk e+8) ≠ (valArena D).chunk cv)
    {s' : NodeMem} (hs' : s' = valDestructor (s.set ((entryArena D).chunk e+8) ((valArena D).chunk cv))
      D (s.get ((entryArena D).chunk e+8))) :
    ∃ c0, KvHeap hash D s'.rw ks nk (c0 :: free) nv ∧ Quiet D s s' := by
  have hR := regionSize_eq
  have hin := hD.inside
  have hbase : (valArena D).base = D+3*regionSize := rfl
  obtain ⟨fe, hentries⟩ := h.entries
  obtain ⟨fv, hvals⟩ := h.vals
  have hfits := hentries.fits
  have hvfits := hvals.fits
  rw [val_stop] at hvfits
  have hE := entry_chunk D e
  obtain ⟨c0, hc0, hcell0⟩ := hentries.val e he
  have hV := val_chunk D c0
  have hend := chunk_le (valArena D) hc0.1
  have hsize : (valArena D).size = 256 := rfl
  have hcell : get64 s.rw (D+16) = (valArena D).base := h.cells.vals
  generalize hm1 : set64 s.rw ((entryArena D).chunk e+8) ((valArena D).chunk cv) = m1
  have hvals1 : (valArena D).Inv m1 free nv fv := by
    apply vals_congr hD hvals
    rw [← hm1]
    exact same_set64 _ _ (by omega)
  have hcell1 : get64 m1 (D+16) = (valArena D).base := by
    rw [← hm1, get64_set64_ne _ _ (by omega), hcell]
  obtain ⟨hinv, hout⟩ := free_spec (val_wf hD) hvals1 hc0
  rw [val_stop] at hout
  generalize hm2 : freeAllocator m1 (valArena D).base ((valArena D).chunk c0) = m2 at hinv hout
  have heq : s' = wrapLogWrite (wrapLogWrite { s with rw := m2 } (valArena D).base sizeofAllocator)
      ((valArena D).chunk c0) 256 := by
    have hsz : get64 m2 ((valArena D).base+16) = 256 := hinv.size
    rw [hs']
    unfold valDestructor
    simp only [NodeMem.set, NodeMem.get, hm1, hcell1, hcell0, hm2, wrapLogWrite_rw, hsz]
  refine ⟨c0, ?_, ?_⟩
  · rw [heq, wrapLogWrite_rw, wrapLogWrite_rw]
    exact h.overwritten hD he hcv hfresh hcell0 hm1 ⟨fv, hinv⟩ hout
  · rw [heq]
    have h1 := quiet_allocator hD s m2 (a := (valArena D).base) (by omega) (by omega)
    exact h1.trans (quiet_wrapLogWrite hD _ _ 256 (by norm_num) (by omega) (by omega))

/-- A call of `update`: every call takes a key chunk, and only a new key takes an entry. -/
theorem update_spec (hD : StoreAt D) (h : KvHeap hash D s.rw ks nk free nv) {key value : List ℕ}
    (hkey : FitsIn keySize key) (hvalue : value.length < valueSize)
    (hpe : s.get (s.get D) ≠ 0) (hpk : s.get (s.get (D+8)) ≠ 0) (hpv : s.get (s.get (D+16)) ≠ 0) :
    ∃ free' nv', KvHeap hash D (kvUpdate hash s D key value).rw
      (if key ∈ ks then ks else ks ++ [key]) (nk+1) free' nv' ∧
    (nv = free.length+ks.length →
      nv' = free'.length+(if key ∈ ks then ks else ks ++ [key]).length) ∧
    (key ≠ [] → value ≠ [] → Quiet D s (kvUpdate hash s D key value)) := by
  have hR := regionSize_eq
  obtain ⟨hk1, hheap1, hstr1, hout1, hquiet1⟩ := allocKey_spec hD h hkey hpk
  generalize hs1 : (allocKey s D key).2 = s1 at hheap1 hstr1 hout1 hquiet1
  have hpv1 : s1.get (s1.get (D+16)) ≠ 0 := by
    have hcell : get64 s1.rw (D+16) = D+3*regionSize := hheap1.cells.vals
    have hcell0 : get64 s.rw (D+16) = D+3*regionSize := h.cells.vals
    have h1 : get64 s1.rw (D+3*regionSize) = get64 s.rw (D+3*regionSize) :=
      get64_congr (same_of_outside hout1 (by omega))
    rw [NodeMem.get, NodeMem.get, hcell, h1]
    rw [NodeMem.get, NodeMem.get, hcell0] at hpv
    exact hpv
  obtain ⟨cv, free', nv', hv2, hheap2, hcv, hcount, hfresh, hout2, hquiet2⟩ :=
    allocVal_spec hD hheap1 hvalue hpv1
  generalize hs2 : (allocVal s1 D value).2 = s2 at hheap2 hfresh hout2 hquiet2
  obtain ⟨fk, hkeys⟩ := hheap2.keys
  have hkfits := hkeys.fits
  have hkc := key_chunk D nk
  have hstr2 : cString s2.rw ((keyArena D).chunk nk) = key := by
    obtain ⟨fk1, hkeys1⟩ := hheap1.keys
    rw [hkeys1.cString_congr (Nat.lt_succ_self nk) (same_of_outside hout2 (by omega)), hstr1]
  have hpe2 : s2.get (s2.get D) ≠ 0 := by
    have hcell : get64 s2.rw D = D+regionSize := hheap2.cells.entries
    have hcell0 : get64 s.rw D = D+regionSize := h.cells.entries
    have h2 : get64 s2.rw (D+regionSize) = get64 s1.rw (D+regionSize) :=
      get64_congr (same_of_outside hout2 (by omega))
    have h1 : get64 s1.rw (D+regionSize) = get64 s.rw (D+regionSize) :=
      get64_congr (same_of_outside hout1 (by omega))
    rw [NodeMem.get, NodeMem.get, hcell, h2, h1]
    rw [NodeMem.get, NodeMem.get, hcell0] at hpe
    exact hpe
  have hd : s2.get (D+24) = D+32 := hheap2.cells.dict
  have heq : kvUpdate hash s D key value =
      dictReplace hash s2 D (D+32) ((keyArena D).chunk nk) ((valArena D).chunk cv) := by
    unfold kvUpdate
    simp only [hs1, hk1, hs2, hv2, hd]
  have hindex := hheap2.dictKeyIndex_spec hstr2
  rw [heq]
  unfold dictReplace
  by_cases hin : key ∈ ks
  · -- the value of the entry is replaced
    obtain ⟨e, he⟩ := List.mem_iff_getElem?.mp hin
    have hlt := (List.getElem?_eq_some_iff.mp he).1
    rw [hindex.1 e he, if_pos hin]
    obtain ⟨c0, hheap3, hquiet3⟩ := overwrite_spec hD hheap2 hlt hcv hfresh rfl
    refine ⟨c0 :: free', nv', hheap3, ?_, ?_⟩
    · rw [List.length_cons]
      omega
    · exact fun hne hne' => ((hquiet1 hne).trans (hquiet2 hne')).trans hquiet3
  · rw [hindex.2 hin, if_neg hin]
    obtain ⟨hheap3, hquiet3⟩ := insert_spec hD hheap2 (Nat.lt_succ_self nk) hstr2 hin hcv hfresh
      hpe2 rfl
    refine ⟨free', nv', hheap3, ?_, ?_⟩
    · rw [List.length_append, List.length_singleton]
      omega
    · exact fun hne hne' => ((hquiet1 hne).trans (hquiet2 hne')).trans hquiet3

end

end Tasvir
