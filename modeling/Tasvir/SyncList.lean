import Mathlib.Tactic
import Tasvir.RunLength

/-! The per-thread list of changed runs and what `tasvir_sync_process_changes`
does with it: an internal sync copies each run from the RW to the RO copy, an
external one cuts it into memory messages. Addresses are offsets from
TASVIR_ADDR_DATA. -/
namespace Tasvir
open RunLength

/-- One copy of the data region, offset to cell. A cell is a byte, except that
the version of an area sits whole in the cell of its first byte. -/
abbrev Mem := ℕ → ℕ

/-- The part of `tasvir_area_desc` that the sync code reads. -/
structure AreaDesc where
  /-- offset of the header in the data region -/
  h : ℕ
  offsetLogEnd : ℕ
  /-- `d == ttld.root_desc` -/
  isRoot : Bool
deriving DecidableEq, Repr

/-- Offset of `version` in `tasvir_area_header`, in its second line. -/
def offVersion : ℕ := 72

/-- `sizeof(tasvir_area_header)`, 21 lines; the payload starts here. -/
def sizeofHeader : ℕ := 1344

/-- `tasvir_msg_mem`; `addr` is `none` for NULL. -/
structure MemMsg where
  id : ℕ
  d : AreaDesc
  version : ℕ
  addr : Option ℕ
  len : ℕ
  last : Bool
  prevBytes : ℕ
  line : ℕ → ℕ

/-- `tasvir_sync_item`; `lenScaled` is a `uint32_t`. -/
structure SyncItem where
  offsetScaled : ℕ
  lenScaled : ℕ
deriving DecidableEq, Repr

/-- TASVIR_SYNC_LIST_LEN. -/
def syncListLen : ℕ := 512

/-- `tasvir_sync_list`: `cnt` is the length of `l`, `changed` an `int`, and
`maxIdx` records the highest index of the array written so far. -/
structure SyncList where
  changed : ℤ := 0
  l : List SyncItem := []
  maxIdx : ℕ := 0

/-- What emitting messages touches: `ring_ext_tx`, `last_sync_ext_bytes_` of
the RO header, the 16-bit message counter, and the buffers taken from and
returned to the mempool. -/
structure TxState where
  ring : List MemMsg := []
  lastSyncExtBytes : ℕ := 0
  nrMsgs : ℕ := 0
  taken : ℕ := 0
  returned : ℕ := 0

structure SyncCtx where
  ro : Mem
  rw : Mem
  sl : SyncList := {}
  tx : TxState := {}

/-- `tasvir_store_vec` with 64-byte vectors. -/
def storeVec (dst src : Mem) (a : ℕ) : Mem :=
  fun x => if a ≤ x ∧ x < a+64 then src x else dst x

def storeVecLoop (dst src : Mem) (a : ℕ) : ℕ → Mem
  | 0 => dst
  | n+1 => storeVecLoop (storeVec dst src a) src (a+64) n

/-- `tasvir_store_vec_rep` and `tasvir_stream_vec_rep`: the body runs once
before the end address is tested, so an empty range still copies a vector. -/
def storeVecRep (dst src : Mem) (a len : ℕ) : Mem :=
  storeVecLoop dst src a ((len-1)/64+1)

/-- The `while (len > 0)` loop of `tasvir_msg_mem_generate`; the first argument
is its number of iterations, `i` the position in the current burst. -/
def msgMemLoop (d : AreaDesc) (v : ℕ) (last : Bool) :
    ℕ → (addr len prevBytes i : ℕ) → SyncCtx → SyncCtx
  | 0, _, _, prevBytes, i, c =>
    -- the buffers of the batch that were not used go back
    { c with tx := { c.tx with
        lastSyncExtBytes := prevBytes, returned := c.tx.returned+(32-i) } }
  | n+1, addr, len, prevBytes, i, c =>
    let mlen := min (64*21) len
    let m : MemMsg :=
      { id := c.tx.nrMsgs%262144, d := d, version := v, addr := some addr, len := mlen
        last := last && len-mlen == 0, prevBytes := prevBytes, line := fun k => c.ro (addr+k) }
    let tx := { c.tx with ring := c.tx.ring ++ [m], nrMsgs := (c.tx.nrMsgs+1)%2^16 }
    -- a new batch is taken when this one is used up, even after the last message
    if i+1 ≥ 32 then
      msgMemLoop d v last n (addr+mlen) (len-mlen) (prevBytes+mlen) 0
        { c with tx := { tx with taken := tx.taken+32 } }
    else msgMemLoop d v last n (addr+mlen) (len-mlen) (prevBytes+mlen) (i+1) { c with tx := tx }

/-- `tasvir_msg_mem_generate`. -/
def msgMemGenerate (d : AreaDesc) (addr len : ℕ) (last : Bool) (c : SyncCtx) : SyncCtx :=
  msgMemLoop d (c.ro (d.h+offVersion)) last ((len+1343)/1344) addr len
    c.tx.lastSyncExtBytes 0 { c with tx := { c.tx with taken := c.tx.taken+32 } }

/-- One pass of the loop of `tasvir_sync_process_changes`. The length is
scaled in 32-bit arithmetic; `changed` wraps as an `int`. -/
def processItem (d : AreaDesc) (external last : Bool) (c : SyncCtx) (it : SyncItem) : SyncCtx :=
  let offset := it.offsetScaled*64%2^64
  let len := it.lenScaled*64%2^32
  let c := if external then msgMemGenerate d offset len last c
    else { c with ro := storeVecRep c.ro c.rw offset len }
  { c with sl := { c.sl with changed := (c.sl.changed+len).bmod (2^32) } }

def processItems (d : AreaDesc) (resetChanged external : Bool) : List SyncItem → SyncCtx → SyncCtx
  | [], c => c
  | it :: its, c =>
    processItems d resetChanged external its
      (processItem d external (resetChanged && its.isEmpty) c it)

/-- `tasvir_sync_process_changes`; the second component is the `size_t` it returns. -/
def syncProcessChanges (d : AreaDesc) (resetChanged external : Bool) (c : SyncCtx) : SyncCtx × ℕ :=
  let c := processItems d resetChanged external c.sl.l c
  ({ c with sl := { c.sl with l := [], changed := if resetChanged then 0 else c.sl.changed } },
    (c.sl.changed%2^64).toNat)

theorem storeVecLoop_apply (dst src : Mem) (a n x : ℕ) :
    storeVecLoop dst src a n x = if a ≤ x ∧ x < a+64*n then src x else dst x := by
  induction n generalizing dst a with
  | zero => simp only [storeVecLoop, show ¬(a ≤ x ∧ x < a+64*0) from by omega, ↓reduceIte]
  | succ n ih =>
    rw [storeVecLoop, ih, storeVec]
    by_cases h1 : a+64 ≤ x ∧ x < a+64+64*n
    · rw [if_pos h1, if_pos (by omega)]
    · rw [if_neg h1]
      exact if_congr (by omega) rfl rfl

/-- A whole number of lines, at least one, is copied exactly. -/
theorem storeVecRep_lines (dst src : Mem) (a n x : ℕ) (hn : 0 < n) :
    storeVecRep dst src a (64*n) x = if a ≤ x ∧ x < a+64*n then src x else dst x := by
  rw [storeVecRep, show (64*n-1)/64+1 = n from by omega, storeVecLoop_apply]

/-- The run an item stands for. -/
def SyncItem.run (it : SyncItem) : Run := (it.offsetScaled, it.lenScaled)

/-- An item whose byte range is representable: not empty, below 4 GiB, and
inside the data region. -/
def SyncItem.Fits (it : SyncItem) : Prop :=
  0 < it.lenScaled ∧ it.lenScaled < 2^26 ∧ it.offsetScaled+it.lenScaled ≤ 2^34

/-- The RO copy after the items have been copied from RW. -/
def copyItems (rw : Mem) (its : List SyncItem) (ro : Mem) : Mem :=
  its.foldl (fun m it => storeVecRep m rw (it.offsetScaled*64%2^64) (it.lenScaled*64%2^32)) ro

theorem copyItems_append (rw : Mem) (its jts : List SyncItem) (ro : Mem) :
    copyItems rw (its ++ jts) ro = copyItems rw jts (copyItems rw its ro) := List.foldl_append

/-- The lines an internal sync copies for an item. -/
def SyncItem.copied (it : SyncItem) : Run := (it.offsetScaled, (it.lenScaled*64%2^32-1)/64+1)

/-- The lines an external sync sends for an item. -/
def SyncItem.sent (it : SyncItem) : Run := (it.offsetScaled, it.lenScaled%2^26)

theorem SyncItem.Fits.copied_eq {it : SyncItem} (hf : it.Fits) : it.copied = it.run := by
  obtain ⟨h0, h1, -⟩ := hf
  rw [SyncItem.copied, SyncItem.run,
    show (it.lenScaled*64%2^32-1)/64+1 = it.lenScaled from by omega]

theorem SyncItem.Fits.sent_eq {it : SyncItem} (hf : it.Fits) : it.sent = it.run := by
  rw [SyncItem.sent, SyncItem.run, Nat.mod_eq_of_lt hf.2.1]

theorem storeVecRep_item (ro rw : Mem) (it : SyncItem) (hoff : it.offsetScaled < 2^58) (x : ℕ) :
    storeVecRep ro rw (it.offsetScaled*64%2^64) (it.lenScaled*64%2^32) x =
      if it.copied.1 ≤ x/64 ∧ x/64 < it.copied.1+it.copied.2 then rw x else ro x := by
  rw [storeVecRep, storeVecLoop_apply,
    show it.offsetScaled*64%2^64 = it.offsetScaled*64 from by omega]
  exact if_congr (by simp only [SyncItem.copied]; omega) rfl rfl

/-- Copying items changes a cell exactly when its line is among those copied. -/
theorem copyItems_copied (rw : Mem) (its : List SyncItem) (ro : Mem)
    (hoff : ∀ it ∈ its, it.offsetScaled < 2^58) (x : ℕ) :
    (Covers (its.map SyncItem.copied) (x/64) → copyItems rw its ro x = rw x) ∧
    (¬Covers (its.map SyncItem.copied) (x/64) → copyItems rw its ro x = ro x) := by
  induction its generalizing ro with
  | nil => exact ⟨fun h => absurd h (covers_nil _), fun _ => rfl⟩
  | cons it its ih =>
    have hi := hoff it List.mem_cons_self
    have ht := ih (storeVecRep ro rw (it.offsetScaled*64%2^64) (it.lenScaled*64%2^32))
      (fun j hj => hoff j (List.mem_cons_of_mem _ hj))
    rw [storeVecRep_item ro rw it hi] at ht
    change (_ → copyItems rw its _ x = _) ∧ (_ → copyItems rw its _ x = _)
    rw [List.map_cons, covers_cons]
    by_cases hc : Covers (its.map SyncItem.copied) (x/64)
    · exact ⟨fun _ => ht.1 hc, fun h => absurd (Or.inr hc) h⟩
    · constructor
      · rintro (h | h)
        · rw [ht.2 hc, if_pos h]
        · exact absurd h hc
      · intro h
        rw [ht.2 hc, if_neg (fun hh => h (Or.inl hh))]

/-- Items that fit are copied whole. -/
theorem copyItems_apply (rw : Mem) (its : List SyncItem) (ro : Mem)
    (hf : ∀ it ∈ its, it.Fits) (x : ℕ) :
    (Covers (its.map SyncItem.run) (x/64) → copyItems rw its ro x = rw x) ∧
    (¬Covers (its.map SyncItem.run) (x/64) → copyItems rw its ro x = ro x) := by
  have hoff (it : SyncItem) (hit : it ∈ its) : it.offsetScaled < 2^58 := by
    obtain ⟨h0, -, h2⟩ := hf it hit
    omega
  have hrun : its.map SyncItem.copied = its.map SyncItem.run :=
    List.map_congr_left fun it hit => (hf it hit).copied_eq
  rw [← hrun]
  exact copyItems_copied rw its ro hoff x

/-- The field `changed` after the bytes of some items were added to it. -/
def tally (changed : ℤ) (its : List SyncItem) : ℤ :=
  its.foldl (fun ch it => (ch+(it.lenScaled*64%2^32 : ℕ)).bmod (2^32)) changed

theorem processItems_internal (d : AreaDesc) (reset : Bool) (its : List SyncItem) (c : SyncCtx) :
    processItems d reset false its c =
      { c with ro := copyItems c.rw its c.ro, sl := { c.sl with changed := tally c.sl.changed its } } := by
  induction its generalizing c with
  | nil => rfl
  | cons it its ih =>
    rw [processItems, ih]
    rfl

end Tasvir
