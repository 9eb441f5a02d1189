import Mathlib.Tactic
import Tasvir.KvUpdate

/-! The key-value store on a replica: which bytes of it a completed sync brings there. -/
namespace Tasvir
open ByteMem Machine

theorem kvData_storeAt {h : ℕ} (hw : (kvArea h).Wf) : StoreAt (kvData h) := by
  obtain ⟨k, hk⟩ := hw.h_aligned
  have hin := hw.inside
  have hR := regionSize_eq
  simp only [kvArea, areaSize] at hk hin
  refine ⟨⟨512*k+21, ?_⟩, ?_, ?_⟩
  · simp only [kvData, sizeofHeader]
    omega
  · simp only [kvData, sizeofHeader]
    omega
  · simp only [kvData, sizeofHeader]
    omega

theorem prevPower_table : dictPrevPower ((regionSize-sizeofWrapper-sizeofDict)/8) = 2^24 := by
  decide +kernel

section
variable {D : ℕ} {s : NodeMem}

theorem initField_rw (s : NodeMem) (field space len objLen : ℕ) :
    (initField s field space len objLen).rw = set64 (initAllocator s.rw space len objLen).2 field
      (initAllocator s.rw space len objLen).1 := by
  unfold initField
  simp only [wrapLogWrite_rw, NodeMem.set]

/-- The cells that `dictCreate` writes. -/
theorem dictCreate_rw (s : NodeMem) (privData space size : ℕ) :
    ∃ m, (dictCreate s privData space size).rw = m ∧
      (space+96 < 2^64 → dictPrevPower ((size-sizeofDict)/8) < 2^64 →
        get64 m (space+16) = space+96 ∧
        get64 m (space+24) = dictPrevPower ((size-sizeofDict)/8) ∧
        get64 m (space+32) = dictPrevPower ((size-sizeofDict)/8)-1 ∧
        get64 m (space+40) = 0 ∧ get64 m (space+72) = 0) ∧
      (∀ x, x < space+8 ∨ space+96 ≤ x → m x = s.rw x) := by
  refine ⟨_, rfl, ?_, ?_⟩
  · intro h1 h2
    unfold dictCreate
    simp only [NodeMem.set, sizeofDict] at h2 ⊢
    refine ⟨?_, ?_, ?_, ?_, ?_⟩ <;>
      simp (disch := omega) only [get64_set64_ne, get64_set64]
  · intro x hx
    unfold dictCreate
    simp only [NodeMem.set]
    have hset (m : Mem) (c v : ℕ) (hc : x < c ∨ c+8 ≤ x) : set64 m c v x = m x :=
      same_set64 m v (a := x) (b := x+1) (by omega) x le_rfl (Nat.lt_succ_self x)
    simp (disch := omega) only [hset]

/-- The log only grows, and the RO copy is left alone. -/
structure Grows (s s' : NodeMem) : Prop where
  log : ∀ l, lineBit s.log l = true → lineBit s'.log l = true
  ro : s'.ro = s.ro
  lists : s'.lists = s.lists

theorem Grows.trans {s s' s'' : NodeMem} (h : Grows s s') (h' : Grows s' s'') : Grows s s'' :=
  ⟨fun l hl => h'.log l (h.log l hl), h'.ro.trans h.ro, h'.lists.trans h.lists⟩

theorem grows_rw (s : NodeMem) (m : Mem) : Grows s { s with rw := m } :=
  ⟨fun _ h => h, rfl, rfl⟩

theorem grows_wrapLogWrite (s : NodeMem) (data size : ℕ) (hsize : 1 ≤ size)
    (hend : data+size ≤ 2^40) : Grows s (wrapLogWrite s data size) := by
  refine ⟨?_, wrapLogWrite_ro s data size, wrapLogWrite_lists s data size⟩
  intro l hl
  rw [lineBit_wrapLogWrite s data size l hsize hend, hl, Bool.true_or]

theorem grows_initField (s : NodeMem) {field space len objLen : ℕ}
    (hend : get64 (initField s field space len objLen).rw field+sizeofAllocator ≤ 2^40) :
    Grows s (initField s field space len objLen) := by
  rw [initField_rw] at hend
  unfold initField
  simp only [NodeMem.set, NodeMem.get]
  exact (grows_rw s _).trans (grows_wrapLogWrite _ _ _ (by norm_num [sizeofAllocator]) hend)

theorem grows_dictCreate (s : NodeMem) (privData space size : ℕ) :
    Grows s (dictCreate s privData space size) := by
  unfold dictCreate
  simp only [NodeMem.set]
  exact grows_rw s _

/-- An allocator that `initField` sets up in an arena. -/
theorem initField_spec {A : Arena} (hA : A.Wf) (hlen : A.chunk 1 ≤ A.stop) (field : ℕ) {objLen : ℕ}
    (hobj : A.size = if objLen > sizeofFreeNode then objLen else sizeofFreeNode)
    (hfield : field+8 ≤ A.base) {m : Mem}
    (hm : (initField s field A.base A.len objLen).rw = m) :
    A.Inv m [] 0 false ∧ get64 m field = A.base ∧
    (∀ x, (x < field ∨ field+8 ≤ x) → (x < A.base ∨ A.stop ≤ x) → m x = s.rw x) ∧
    (A.base+24 ≤ 2^40 → Grows s (initField s field A.base A.len objLen)) := by
  obtain ⟨h1, hinv, hout⟩ := init_spec (m := s.rw) hA hlen hobj
  have hin := hA.inside
  have hstop : A.stop = A.base+A.len := rfl
  have hval : set64 (initAllocator s.rw A.base A.len objLen).2 field A.base = m := by
    rw [← hm, initField_rw, h1]
  have hhead : get64 m field = A.base := by
    rw [← hval, get64_set64 _ _ (by omega)]
  refine ⟨?_, hhead, ?_, ?_⟩
  · rw [← hval]
    exact hinv.congr hA (same_set64 _ _ (by omega))
  · intro x hx hx'
    rw [← hval, same_set64 _ _ (a := x) (b := x+1) (by omega) x le_rfl (Nat.lt_succ_self x),
      hout x hx']
  · intro hend
    apply grows_initField
    rw [hm, hhead]
    exact hend

/-- The wrapper and the dictionary after `initDictWrapper` in `main`. -/
theorem kvInit_rw {h : ℕ} (hD : StoreAt (kvData h)) (s : NodeMem) :
    DictCells (kvData h) (kvInit s h).rw 0 ∧
    (entryArena (kvData h)).Inv (kvInit s h).rw [] 0 false ∧
    (keyArena (kvData h)).Inv (kvInit s h).rw [] 0 false ∧
    (valArena (kvData h)).Inv (kvInit s h).rw [] 0 false ∧
    Same s.rw (kvInit s h).rw (kvData h+128) (kvData h+regionSize) ∧
    lineBit (kvInit s h).log (kvData h/64) = true ∧ (kvInit s h).ro = s.ro ∧
    (kvInit s h).lists = s.lists := by
  have hR := regionSize_eq
  have hin := hD.inside
  unfold kvInit
  generalize kvData h = D at hD hin ⊢
  have hstop1 := entry_stop D
  have hstop2 := key_stop D
  have hstop3 := val_stop D
  have hfirst : lineBit (wrapLogWrite s D 32).log (D/64) = true := by
    rw [lineBit_wrapLogWrite s D 32 _ (by norm_num) (by omega),
      decide_eq_true ⟨le_rfl, by omega⟩, Bool.or_true]
  unfold initDictWrapper
  simp only [wrapLogWrite_rw, NodeMem.set, NodeMem.get, sizeofWrapper]
  generalize hs1 : initField (wrapLogWrite s D 32) D (D+regionSize) regionSize sizeofEntry = s1
  generalize hs2 : initField s1 (D+8) (D+2*regionSize) regionSize keySize = s2
  generalize hs3 : initField s2 (D+16) (D+3*regionSize) regionSize valueSize = s3
  obtain ⟨inv1, c1, o1, g1⟩ := initField_spec (entry_wf hD)
    (by rw [entry_chunk, entry_stop]; omega) (D)
    (show (entryArena D).size = if sizeofEntry > sizeofFreeNode then sizeofEntry
      else sizeofFreeNode from rfl) (by simp only [entryArena]; omega) (congrArg NodeMem.rw hs1)
  obtain ⟨inv2, c2, o2, g2⟩ := initField_spec (key_wf hD)
    (by rw [key_chunk, key_stop]; omega) (D+8)
    (show (keyArena D).size = if keySize > sizeofFreeNode then keySize
      else sizeofFreeNode from rfl) (by simp only [keyArena]; omega) (congrArg NodeMem.rw hs2)
  obtain ⟨inv3, c3, o3, g3⟩ := initField_spec (val_wf hD)
    (by rw [val_chunk, val_stop]; omega) (D+16)
    (show (valArena D).size = if valueSize > sizeofFreeNode then valueSize
      else sizeofFreeNode from rfl) (by simp only [valArena]; omega) (congrArg NodeMem.rw hs3)
  have hb1 : (entryArena D).base = D+regionSize := rfl
  have hb2 : (keyArena D).base = D+2*regionSize := rfl
  have hb3 : (valArena D).base = D+3*regionSize := rfl
  obtain ⟨m4, hm4, hdict, o4⟩ := dictCreate_rw s3 D (D+32) (regionSize-32)
  have hpow : dictPrevPower ((regionSize-32-sizeofDict)/8) = 2^24 := prevPower_table
  obtain ⟨d1, d2, d3, d4, d5⟩ := hdict (by omega) (by rw [hpow]; norm_num)
  rw [hpow] at d2 d3
  rw [hm4]
  -- which later writes a range is clear of; this is about the layout only
  have hsame4 {a b : ℕ} (hab : b ≤ D+24 ∨ D+128 ≤ a) :
      Same s3.rw (set64 m4 (D+24) (D+32)) a b := by
    clear * - hab o4
    exact Same.trans (fun x h1 h2 => o4 x (by omega)) (same_set64 _ _ (by omega))
  have hsame3 {a b : ℕ} (hab : b ≤ D+16 ∨ D+128 ≤ a ∧ b ≤ D+3*regionSize) :
      Same s2.rw (set64 m4 (D+24) (D+32)) a b := by
    clear * - hab hsame4 o3 hb3 hR
    exact Same.trans (fun x h1 h2 => o3 x (by omega) (by omega)) (hsame4 (by omega))
  have hsame2 {a b : ℕ} (hab : b ≤ D+8 ∨ D+128 ≤ a ∧ b ≤ D+2*regionSize) :
      Same s1.rw (set64 m4 (D+24) (D+32)) a b := by
    clear * - hab hsame3 o2 hb2 hR
    exact Same.trans (fun x h1 h2 => o2 x (by omega) (by omega)) (hsame3 (by omega))
  have hsame1 : Same (wrapLogWrite s D 32).rw (set64 m4 (D+24) (D+32)) (D+128) (D+regionSize) := by
    clear * - hsame2 o1 hb1 hR
    exact Same.trans (fun x h1 h2 => o1 x (by omega) (by omega)) (hsame2 (by omega))
  -- the log of the wrapper is never lost
  have hgrows : Grows (wrapLogWrite s D 32) (dictCreate s3 D (D+32) (regionSize-32)) := by
    have g1' := g1 (by omega)
    have g2' := g2 (by omega)
    have g3' := g3 (by omega)
    rw [hb1] at g1'
    rw [hb2] at g2'
    rw [hb3] at g3'
    simp only [entryArena, keyArena, valArena, hs1, hs2, hs3] at g1' g2' g3'
    exact ((g1'.trans g2').trans g3').trans (grows_dictCreate s3 D (D+32) (regionSize-32))
  have hlast := (hgrows.trans (grows_rw _ (set64 m4 (D+24) (D+32)))).trans
    (grows_wrapLogWrite _ (get64 (set64 m4 (D+24) (D+32)) (D+24)) sizeofDict
      (by norm_num [sizeofDict]) (by
        rw [get64_set64 _ _ (by omega)]
        simp only [sizeofDict]
        omega))
  refine ⟨⟨?_, ?_, ?_, ?_, ?_, ?_, ?_, ?_, ?_⟩, ?_, ?_, ?_, ?_, ?_, ?_, ?_⟩
  · rw [get64_congr (hsame2 (by omega)), c1, hb1]
  · rw [get64_congr (hsame3 (by omega)), c2, hb2]
  · rw [get64_congr (hsame4 (by omega)), c3, hb3]
  · exact get64_set64 _ _ (by omega)
  · rw [get64_set64_ne _ _ (by omega)]
    exact d1
  · rw [get64_set64_ne _ _ (by omega)]
    exact d2
  · rw [get64_set64_ne _ _ (by omega)]
    exact d3
  · rw [get64_set64_ne _ _ (by omega)]
    exact d4
  · rw [get64_set64_ne _ _ (by omega)]
    exact d5
  · exact inv1.congr (entry_wf hD) (hsame2 (by omega))
  · exact inv2.congr (key_wf hD) (hsame3 (by omega))
  · exact inv3.congr (val_wf hD) (hsame4 (by omega))
  · rwa [wrapLogWrite_rw] at hsame1
  · exact hlast.log _ hfirst
  · rw [hlast.ro, wrapLogWrite_ro]
  · rw [hlast.lists, wrapLogWrite_lists]

theorem get64_zero {m : Mem} {a : ℕ} (h : ∀ x, a ≤ x → x < a+8 → m x = 0) : get64 m a = 0 := by
  have hload (n b : ℕ) (hb : ∀ x, b ≤ x → x < b+n → m x = 0) : load m b n = 0 := by
    induction n generalizing b with
    | zero => rfl
    | succ n ih =>
      rw [load, hb b le_rfl (by omega), ih (b+1) fun x h1 h2 => hb x (by omega) (by omega)]
  exact hload 8 a h

/-- A new store has no entries. -/
theorem kvInit_heap (hash : List ℕ → ℕ) {h : ℕ} (hD : StoreAt (kvData h)) {s : NodeMem}
    (hblank : ∀ x, kvData h ≤ x → x < kvData h+regionSize → s.rw x = 0) :
    KvHeap hash (kvData h) (kvInit s h).rw [] 0 [] 0 := by
  obtain ⟨hcells, hentries, hkeys, hvals, hsame, -⟩ := kvInit_rw hD s
  have hR := regionSize_eq
  refine ⟨hcells, ⟨false, hentries, ?_, ?_, ?_⟩, ⟨false, hkeys, ?_⟩, ⟨false, hvals⟩,
    ⟨fun _ => [], ?_, fun _ _ => List.nodup_nil, ?_⟩, ?_, List.nodup_nil⟩
  · exact fun e he => absurd he (Nat.not_lt_zero e)
  · exact fun e he => absurd he (Nat.not_lt_zero e)
  · exact fun e he => absurd he (Nat.not_lt_zero e)
  · exact fun c hc => absurd hc (Nat.not_lt_zero c)
  · intro i hi
    apply get64_zero
    intro x h1 h2
    rw [hsame x (by omega) (by omega)]
    exact hblank x (by omega) (by omega)
  · intro i hi e
    simp
  · intro e k hk
    simp at hk

end

theorem kvData_payload {h x : ℕ} (h1 : kvData h ≤ x) (h2 : x < kvData h+4*regionSize) :
    (kvArea h).Payload x := by
  have hR := regionSize_eq
  simp only [kvData, sizeofHeader] at h1 h2
  refine ⟨?_, ?_⟩
  · simp only [kvArea, sizeofHeader]
    omega
  · simp only [kvArea, areaSize]
    omega

section
variable {h : ℕ} (hw : (kvArea h).Wf)
include hw

/-- A completed sync of the store's area. -/
theorem internal_spec (n : OwnerNode) {evs : List SyncEvent} (hev : Completes (kvArea h) evs)
    (timeUs : ℕ) (hlists : ∀ t, Foreign (kvArea h) (n.mem.lists t).l) :
    (∀ x, (kvArea h).Payload x → (n.internal (kvArea h) evs timeUs).mem.rw x = n.mem.rw x) ∧
    (∀ x, (kvArea h).Payload x → (n.internal (kvArea h) evs timeUs).mem.ro x =
      if lineBit n.mem.log (x/64) then n.mem.rw x else n.mem.ro x) ∧
    (∀ l, (kvArea h).Has l → lineBit (n.internal (kvArea h) evs timeUs).mem.log l = false) ∧
    ∀ t, Foreign (kvArea h) ((n.internal (kvArea h) evs timeUs).mem.lists t).l := by
  have hsmall : SmallChunks evs := hev.smallChunks (by norm_num [kvArea, areaSize])
  have hp := syncEvents_published hw true n.mem evs hev hsmall hlists
  have hro (x : ℕ) (hx : (kvArea h).Payload x) := hp.ro_eq x (hx.has hw)
  unfold OwnerNode.internal
  generalize syncEvents (kvArea h) true n.mem evs = m' at hp hro
  simp only
  split_ifs
  · refine ⟨?_, ?_, hp.log_in, hp.lists_foreign⟩
    · intro x hx
      rw [(publish_payload { n with mem := m' } timeUs hx).2]
      exact congrFun hp.rw_eq x
    · intro x hx
      rw [(publish_payload { n with mem := m' } timeUs hx).1]
      exact hro x hx
  · exact ⟨fun x _ => congrFun hp.rw_eq x, hro, hp.log_in, hp.lists_foreign⟩

end

/-- What holds in all runs: the store of the owner has the keys that were written, while the
replica has the dictionary of the first sync, with no entry used. -/
structure KvInv (hash : List ℕ → ℕ) (h : ℕ) (s : KvState) : Prop where
  heap : ∃ ks nk free nv, KvHeap hash (kvData h) s.node.mem.rw ks nk free nv ∧
    ∀ k, k ∈ ks ↔ k ∈ s.history.map Prod.fst
  clean : ∀ l, kvData h/64 ≤ l → l < kvData h/64+2 → lineBit s.node.mem.log l = false
  dict : get64 s.node.mem.ro (kvData h+24) = kvData h+32
  used : get64 s.node.mem.ro (kvData h+72) = 0
  used1 : get64 s.node.mem.ro (kvData h+104) = 0
  lists : ∀ t, Foreign (kvArea h) (s.node.mem.lists t).l
  valid : ∀ x ∈ s.history, ValidString keySize x.1

section
variable {hash : List ℕ → ℕ} {h : ℕ} (hw : (kvArea h).Wf)
include hw

/-- The lines of the wrapper and of the dictionary. -/
theorem dict_has {l : ℕ} (h1 : kvData h/64 ≤ l) (h2 : l < kvData h/64+2) : (kvArea h).Has l := by
  obtain ⟨k, hk⟩ := hw.h_aligned
  simp only [kvArea] at hk
  simp only [kvData, sizeofHeader] at h1 h2
  refine ⟨?_, ?_⟩
  · simp only [kvArea]
    omega
  · simp only [kvArea, areaSize]
    omega

theorem KvInv.start {n : OwnerNode} (hn : KvState.Blank h n) {evs : List SyncEvent}
    (hev : Completes (kvArea h) evs) (timeUs : ℕ) :
    KvInv hash h { node := { n with mem := kvInit n.mem h }.internal (kvArea h) evs timeUs } := by
  have hD := kvData_storeAt hw
  have hR := regionSize_eq
  have hin := hD.inside
  obtain ⟨k, hk⟩ := hD.aligned
  obtain ⟨hcells, -, -, -, -, hbit, hro, hlists⟩ := kvInit_rw hD n.mem
  have hheap := kvInit_heap hash hD fun x h1 h2 =>
    hn.rw x (kvData_payload h1 (by omega))
  obtain ⟨irw, iro, ilog, ilists⟩ := internal_spec hw { n with mem := kvInit n.mem h } hev timeUs
    (by simp only [hlists]; exact hn.lists)
  simp only at irw iro ilog ilists
  -- the 8 bytes at `a` lie in one line, which was copied or is still zero
  have hzero (a : ℕ) (h1 : kvData h ≤ a) (h2 : a+8 ≤ kvData h+128) (h3 : a%8 = kvData h%8)
      (hrw : get64 (kvInit n.mem h).rw a = 0) :
      get64 (OwnerNode.internal (kvArea h) evs timeUs { n with mem := kvInit n.mem h }).mem.ro a =
        0 := by
    have hline (x : ℕ) (hx : a ≤ x) (hx' : x < a+8) : x/64 = a/64 := by omega
    cases hb : lineBit (kvInit n.mem h).log (a/64) with
    | true =>
      rw [← hrw]
      apply get64_congr
      intro x hx hx'
      rw [iro x (kvData_payload (by omega) (by omega)), hline x hx hx', hb, if_pos rfl]
    | false =>
      apply get64_zero
      intro x hx hx'
      rw [iro x (kvData_payload (by omega) (by omega)), hline x hx hx', hb,
        if_neg Bool.false_ne_true, hro]
      exact hn.ro x (kvData_payload (by omega) (by omega))
  refine ⟨⟨[], 0, [], 0, ?_, ?_⟩, ?_, ?_, ?_, ?_, ilists, ?_⟩
  · exact hheap.congr hD fun x h1 h2 => irw x (kvData_payload h1 h2)
  · intro k
    simp
  · exact fun l h1 h2 => ilog l (dict_has hw h1 h2)
  · rw [← hcells.dict]
    apply get64_congr
    intro x hx hx'
    rw [iro x (kvData_payload (by omega) (by omega)), show x/64 = kvData h/64 from by omega, hbit,
      if_pos rfl]
  · exact hzero _ (by omega) (by omega) (by omega) hcells.used
  · exact hzero _ (by omega) (by omega) (by omega) hcells.used1
  · exact fun x hx => absurd hx List.not_mem_nil

theorem KvInv.update {s : KvState} (hs : KvInv hash h s) {key value : List ℕ}
    (hp : s.pre h (.update key value)) : KvInv hash h (s.next hash h (.update key value)) := by
  obtain ⟨hkey, hvalue, hpe, hpk, hpv⟩ := hp
  have hD := kvData_storeAt hw
  obtain ⟨ks, nk, free, nv, hheap, hks⟩ := hs.heap
  obtain ⟨free', nv', hheap', -, hquiet⟩ := update_spec hD hheap hkey.2 hvalue.2.1 hpe hpk hpv
  have hq := hquiet hkey.1 hvalue.1
  generalize hm : kvUpdate hash s.node.mem (kvData h) key value = m' at hheap' hq
  have hnext : s.next hash h (.update key value) =
      { node := { s.node with mem := m' }, history := (key, value) :: s.history } := by
    simp only [KvState.next, hm]
  rw [hnext]
  refine ⟨⟨_, _, free', nv', hheap', ?_⟩, ?_, ?_, ?_, ?_, ?_, ?_⟩
  · intro k
    rw [List.map_cons, List.mem_cons, ← hks]
    split_ifs with hin
    · constructor
      · exact Or.inr
      · rintro (rfl | hk)
        · exact hin
        · exact hk
    · rw [List.mem_append, List.mem_singleton, or_comm]
  · intro l h1 h2
    exact (hq.log l h1 h2).trans (hs.clean l h1 h2)
  · simp only [hq.ro, hs.dict]
  · simp only [hq.ro, hs.used]
  · simp only [hq.ro, hs.used1]
  · simp only [hq.lists]
    exact hs.lists
  · intro x hx
    rcases List.mem_cons.mp hx with rfl | hx
    · exact hkey
    · exact hs.valid x hx

theorem KvInv.sync {s : KvState} (hs : KvInv hash h s) {evs : List SyncEvent}
    (hev : Completes (kvArea h) evs) (timeUs : ℕ) :
    KvInv hash h (s.next hash h (.sync evs timeUs)) := by
  have hD := kvData_storeAt hw
  have hR := regionSize_eq
  obtain ⟨k, hk⟩ := hD.aligned
  obtain ⟨ks, nk, free, nv, hheap, hks⟩ := hs.heap
  obtain ⟨irw, iro, ilog, ilists⟩ := internal_spec hw s.node hev timeUs hs.lists
  have hro {a : ℕ} (h1 : kvData h ≤ a) (h2 : a+8 ≤ kvData h+128) :
      get64 (s.node.internal (kvArea h) evs timeUs).mem.ro a = get64 s.node.mem.ro a := by
    apply get64_congr
    intro x hx hx'
    rw [iro x (kvData_payload (by omega) (by omega)), hs.clean _ (by omega) (by omega),
      if_neg Bool.false_ne_true]
  refine ⟨⟨ks, nk, free, nv, ?_, hks⟩, ?_, ?_, ?_, ?_, ilists, hs.valid⟩
  · exact hheap.congr hD fun x h1 h2 => irw x (kvData_payload h1 h2)
  · exact fun l h1 h2 => ilog l (dict_has hw h1 h2)
  · exact (hro (by omega) (by omega)).trans hs.dict
  · exact (hro (by omega) (by omega)).trans hs.used
  · exact (hro (by omega) (by omega)).trans hs.used1

theorem KvInv.reachable {s : KvState} (hs : (kvSystem hash h).Reachable s) : KvInv hash h s := by
  refine hs.invariant ?_ ?_
  · rintro s ⟨n, evs, timeUs, hn, hev, rfl⟩
    exact KvInv.start hw hn hev timeUs
  · intro s a hs hp
    cases a with
    | update key value => exact hs.update hw hp
    | sync evs timeUs => exact hs.sync hw hp timeUs

omit hw in
/-- No key is found on the replica, and all that were written are found by the owner. -/
theorem KvInv.finds {s : KvState} (hs : KvInv hash h s) (key : List ℕ) :
    dictFind hash s.node.mem.ro (get64 s.node.mem.ro (kvData h+24)) key = none ∧
    ((dictFind hash s.node.mem.rw (get64 s.node.mem.rw (kvData h+24)) key).isSome ↔
      key ∈ s.history.map Prod.fst) := by
  obtain ⟨ks, nk, free, nv, hheap, hks⟩ := hs.heap
  have hfind := hheap.dictFind_spec key
  constructor
  · rw [hs.dict, dictFind, if_pos]
    rw [Nat.add_assoc, Nat.add_assoc, hs.used, hs.used1, Nat.zero_add, Nat.zero_mod]
  · rw [hheap.cells.dict, ← hks]
    constructor
    · intro hsome
      by_contra hnone
      rw [hfind.2 hnone] at hsome
      exact Bool.false_ne_true hsome
    · intro hin
      obtain ⟨e, he⟩ := List.mem_iff_getElem?.mp hin
      rw [hfind.1 e he]
      rfl

omit hw in
theorem KvInv.agrees_iff {s : KvState} (hs : KvInv hash h s) :
    s.ReplicaAgrees hash h ↔ s.history = [] := by
  constructor
  · intro hagree
    by_contra hne
    obtain ⟨x, hx⟩ := List.exists_mem_of_ne_nil _ hne
    have hfinds := hs.finds x.1
    have hiff := (hagree x.1 (hs.valid x hx)).1
    simp only at hiff
    rw [hfinds.1, hfinds.2] at hiff
    exact Bool.false_ne_true (hiff.mpr (List.mem_map_of_mem hx))
  · intro hnil key _
    have hfinds := hs.finds key
    rw [hnil] at hfinds
    simp only
    refine ⟨?_, ?_⟩
    · rw [hfinds.1, hfinds.2]
      simp
    · intro value _ e e' he
      rw [hfinds.1] at he
      exact absurd he (by simp)

/-- The first update finds all allocators with room. -/
theorem first_update {n : OwnerNode} (hn : KvState.Blank h n) {evs : List SyncEvent}
    (hev : Completes (kvArea h) evs) (timeUs : ℕ) {key value : List ℕ}
    (hkey : ValidString keySize key) (hvalue : ValidString valueSize value) :
    KvState.pre h { node := { n with mem := kvInit n.mem h }.internal (kvArea h) evs timeUs }
      (.update key value) := by
  have hD := kvData_storeAt hw
  have hR := regionSize_eq
  obtain ⟨hcells, hentries, hkeys, hvals, -, -, -, hlists⟩ := kvInit_rw hD n.mem
  obtain ⟨irw, -⟩ := internal_spec hw { n with mem := kvInit n.mem h } hev timeUs
    (by simp only [hlists]; exact hn.lists)
  generalize OwnerNode.internal (kvArea h) evs timeUs { n with mem := kvInit n.mem h } = n'
    at irw ⊢
  have hget (a : ℕ) (h1 : kvData h ≤ a) (h2 : a+8 ≤ kvData h+4*regionSize) :
      get64 n'.mem.rw a = get64 (kvInit n.mem h).rw a := by
    apply get64_congr
    intro x hx hx'
    exact irw x (kvData_payload (by omega) (by omega))
  -- the head of a new allocator is its first chunk
  have hroom (a b : ℕ) (h1 : kvData h ≤ a) (h2 : a+8 ≤ kvData h+4*regionSize)
      (hcell : get64 (kvInit n.mem h).rw a = b) (h3 : kvData h ≤ b)
      (h4 : b+8 ≤ kvData h+4*regionSize) (hhead : get64 (kvInit n.mem h).rw b = b+24) :
      n'.mem.get (n'.mem.get a) ≠ 0 := by
    simp only [NodeMem.get]
    rw [hget a h1 h2, hcell, hget b h3 h4, hhead]
    omega
  refine ⟨hkey, hvalue, ?_, ?_, ?_⟩
  · exact hroom _ _ (by omega) (by omega) hcells.entries (by omega) (by omega) hentries.linked.1
  · exact hroom _ _ (by omega) (by omega) hcells.keys (by omega) (by omega) hkeys.linked.1
  · exact hroom _ _ (by omega) (by omega) hcells.vals (by omega) (by omega) hvals.linked.1

end

theorem reachable_first (hash : List ℕ → ℕ) {h : ℕ} (hw : (kvArea h).Wf) {n : OwnerNode}
    (hn : KvState.Blank h n) {evs : List SyncEvent} (hev : Completes (kvArea h) evs) (timeUs : ℕ)
    {key value : List ℕ} (hkey : ValidString keySize key) (hvalue : ValidString valueSize value) :
    (kvSystem hash h).Reachable ((kvSystem hash h).next
      { node := { n with mem := kvInit n.mem h }.internal (kvArea h) evs timeUs }
      (.update key value)) := by
  have hpre := first_update hw hn hev timeUs hkey hvalue
  exact System.Reachable.step (.init ⟨n, evs, timeUs, hn, hev, rfl⟩) hpre

/-- After a completed sync the replica agrees with its owner only if nothing was ever written:
`ht->used` is never logged. -/
theorem replica_agrees_iff (hash : List ℕ → ℕ) {h : ℕ} (hw : (kvArea h).Wf) {s : KvState}
    (hs : (kvSystem hash h).Reachable s) {evs : List SyncEvent} (hev : Completes (kvArea h) evs)
    (timeUs : ℕ) :
    (s.next hash h (.sync evs timeUs)).ReplicaAgrees hash h ↔ s.history = [] :=
  ((KvInv.reachable hw hs).sync hw hev timeUs).agrees_iff

/-- A node on which nothing has been written yet. -/
def blankNode : OwnerNode :=
  { mem := zeroMem, info := fun _ => {}, lastSyncExtUs := 0, sleeping := false, tx := {} }

theorem blankNode_blank : KvState.Blank 32768 blankNode :=
  ⟨fun _ _ => rfl, fun _ _ => rfl, fun _ _ hit => absurd hit List.not_mem_nil⟩

theorem kvArea_wf : (kvArea 32768).Wf :=
  ⟨⟨1, rfl⟩, by norm_num [kvArea], ⟨32769, by norm_num [kvArea, areaSize]⟩,
    by norm_num [kvArea, areaSize]⟩

/-- One thread syncs the whole area. -/
def wholeSync : List SyncEvent := [.parse 0 0 (areaSize+32768), .process 0]

theorem wholeSync_completes : Completes (kvArea 32768) wholeSync :=
  completes_whole (kvArea 32768) kvArea_wf (by norm_num [kvArea, areaSize])

/-- The store that `main` sets up, synced once. -/
def freshStore : KvState :=
  { node := { blankNode with mem := kvInit blankNode.mem 32768 }.internal (kvArea 32768) wholeSync 0 }

theorem freshStore_reachable (hash : List ℕ → ℕ) : (kvSystem hash 32768).Reachable freshStore :=
  .init ⟨blankNode, wholeSync, 0, blankNode_blank, wholeSync_completes, rfl⟩

theorem history_sync (hash : List ℕ → ℕ) (h : ℕ) (s : KvState) (evs : List SyncEvent) (timeUs : ℕ) :
    (s.next hash h (.sync evs timeUs)).history = s.history := rfl

/-- Its first update, `v` under the key `k`. -/
def firstUpdate : KvState := (kvSystem (fun _ => 0) 32768).next freshStore (.update [107] [118])

theorem firstUpdate_reachable : (kvSystem (fun _ => 0) 32768).Reachable firstUpdate := by
  have hvalid {n : ℕ} (hn : 1 < n) {b : ℕ} (hb : 0 < b ∧ b < 256) : ValidString n [b] :=
    ⟨List.cons_ne_nil _ _, hn, by simpa using hb⟩
  unfold firstUpdate freshStore
  exact reachable_first _ kvArea_wf blankNode_blank wholeSync_completes 0
    (hvalid (by norm_num [keySize]) (by norm_num))
    (hvalid (by norm_num [valueSize]) (by norm_num))

theorem firstUpdate_history : firstUpdate.history = [([107], [118])] := by
  unfold firstUpdate kvSystem
  simp only [KvState.next]
  rfl

/-- The store of `main` before and after its first update. -/
theorem replica_agrees_iff_first :
    ((freshStore.next (fun _ => 0) 32768 (.sync wholeSync 1)).ReplicaAgrees (fun _ => 0) 32768 ↔
      freshStore.history = []) ∧
    ((firstUpdate.next (fun _ => 0) 32768 (.sync wholeSync 1)).ReplicaAgrees (fun _ => 0) 32768 ↔
      firstUpdate.history = []) :=
  ⟨replica_agrees_iff _ kvArea_wf (freshStore_reachable _) wholeSync_completes 1,
    replica_agrees_iff _ kvArea_wf firstUpdate_reachable wholeSync_completes 1⟩

/-- The owner finds the key that it has written and synced, the replica does not. -/
theorem replica_misses_first_key :
    ¬ (firstUpdate.next (fun _ => 0) 32768 (.sync wholeSync 1)).ReplicaAgrees (fun _ => 0) 32768 := by
  intro hagree
  have hinv := KvInv.reachable kvArea_wf firstUpdate_reachable
  have hempty := (hinv.sync kvArea_wf wholeSync_completes 1).agrees_iff.mp hagree
  rw [history_sync, firstUpdate_history] at hempty
  exact List.cons_ne_nil _ _ hempty

end Tasvir
