import Mathlib.Tactic
import Tasvir.Emission
import Tasvir.OwnerRun

/-! The receiving side of a remote area: `tasvir_handle_msg_mem`, the internal
sync of an area that is not local, and the queue of deferred messages. -/
namespace Tasvir
open RunLength

/-- What a node keeps for a remote area: the flags and counters of its RW
header, the memory, and `ring_mem_pending`. -/
structure Receiver where
  mem : NodeMem
  /-- `d->h` is known -/
  hasHeader : Bool := true
  /-- TASVIR_AREA_FLAG_ACTIVE -/
  active : Bool := false
  /-- TASVIR_AREA_FLAG_SLEEPING -/
  sleeping : Bool := false
  /-- TASVIR_AREA_FLAG_EXT_PENDING -/
  pending : Bool := false
  /-- TASVIR_AREA_FLAG_EXT_IGNORE -/
  ignore : Bool := false
  /-- TASVIR_AREA_FLAG_EXT_ENQUEUE -/
  enqueue : Bool := false
  lastSyncExtV : ℕ := 0
  lastSyncExtBytes : ℕ := 0
  ring : List MemMsg := []
  /-- `tasvir_is_booting()` -/
  booting : Bool := false

/-- `tasvir_stream_vec_rep` of a message's lines to address `a`. -/
def storeLines (dst : Mem) (m : MemMsg) (a : ℕ) : Mem :=
  storeVecRep dst (fun x => m.line (x-a)) a m.len

/-- Log the range and write it to the RW copy, at boot also to the RO copy. -/
def NodeMem.receive (mem : NodeMem) (booting : Bool) (m : MemMsg) (a : ℕ) : NodeMem :=
  { mem with
    log := tasvirLog mem.log (addrData+a) m.len
    rw := storeLines mem.rw m a
    ro := if booting then storeLines mem.ro m a else mem.ro }

/-- A message of another version starts that version. -/
def Receiver.enter (r : Receiver) (m : MemMsg) : Receiver :=
  if r.lastSyncExtV ≠ m.version then
    { r with lastSyncExtV := m.version, lastSyncExtBytes := 0, ignore := false, pending := true }
  else r

/-- A byte count that does not match is noted in the flags. -/
def Receiver.checkBytes (r : Receiver) (m : MemMsg) : Receiver :=
  if r.lastSyncExtBytes ≠ m.prevBytes then { r with pending := false, ignore := true } else r

def Receiver.store (r : Receiver) (m : MemMsg) : Receiver :=
  match m.addr with
  | some a => { r with
      mem := r.mem.receive r.booting m a, lastSyncExtBytes := r.lastSyncExtBytes+m.len }
  | none => r

/-- The last message of a version; `late` tells that more than half of the
internal sync interval has passed. -/
def Receiver.finish (r : Receiver) (late : Bool) (m : MemMsg) : Receiver :=
  if m.last then
    { r with pending := false, active := true, enqueue := r.enqueue || (!r.booting && late) }
  else r

/-- `tasvir_handle_msg_mem`; `full` tells that the enqueue on `ring_mem_pending` fails. -/
def Receiver.handleMsgMem (late full : Bool) (r : Receiver) (m : MemMsg) : Receiver :=
  if !r.hasHeader then r
  else if r.enqueue then
    if !full then { r with ring := r.ring ++ [m] } else { r with enqueue := false, ignore := true }
  else
    let r := r.enter m
    if r.ignore || !r.pending then r
    else ((r.checkBytes m).store m).finish late m

/-- `tasvir_area_walk` reaches the area and `tasvir_sched_sync_internal_area`
makes a job of it. -/
def Receiver.scheduled (r : Receiver) : Bool :=
  r.hasHeader && r.active && !(r.pending || r.sleeping)

/-- The area's part in a completed internal sync. -/
def Receiver.syncJob (d : AreaDesc) (evs : List SyncEvent) (r : Receiver) : Receiver :=
  if r.scheduled then { r with mem := syncEvents d false r.mem evs, enqueue := false } else r

/-- `tasvir_service_ring` on the deferred messages, right after a sync: the time
since the sync is zero then. -/
def Receiver.drain (r : Receiver) : Receiver :=
  r.ring.foldl (Receiver.handleMsgMem false false) { r with ring := [] }

def Receiver.internalSync (d : AreaDesc) (evs : List SyncEvent) (r : Receiver) : Receiver :=
  (r.syncJob d evs).drain

/-- The effect of messages on a copy. -/
def applyMsgs (dst : Mem) (ms : List MemMsg) : Mem :=
  ms.foldl (fun mem m => match m.addr with
    | some a => storeLines mem m a
    | none => mem) dst

theorem applyMsgs_append (dst : Mem) (ms ns : List MemMsg) :
    applyMsgs dst (ms ++ ns) = applyMsgs (applyMsgs dst ms) ns := List.foldl_append

theorem storeLines_fragment {d : AreaDesc} {v : ℕ} {image : Mem} {prev : ℕ} {m : MemMsg}
    (h : m.Fragment d v image prev) (dst : Mem) (x : ℕ) :
    applyMsgs dst [m] x = if Covers [m.run] (x/64) then image x else dst x := by
  obtain ⟨a, n, ha, hn, hpos, hline⟩ := h.lines
  have hrun : m.run = (a, n) := by
    simp only [MemMsg.run, ha, hn, Option.getD_some,
      Nat.mul_div_cancel_left _ (show 0 < 64 by norm_num)]
  have hcov : Covers [m.run] (x/64) ↔ 64*a ≤ x ∧ x < 64*a+64*n := by
    rw [covers_cons, hrun]
    simp only [covers_nil, or_false]
    omega
  simp only [applyMsgs, List.foldl_cons, List.foldl_nil, ha, storeLines, hn]
  rw [storeVecRep_lines _ _ _ _ _ hpos]
  by_cases hx : 64*a ≤ x ∧ x < 64*a+64*n
  · rw [if_pos hx, if_pos (hcov.mpr hx), hline, show 64*a+(x-64*a) = x from by omega]
  · rw [if_neg hx, if_neg (fun h => hx (hcov.mp h))]

theorem storeLines_image {d : AreaDesc} {v : ℕ} {image : Mem} {prev a : ℕ} {m : MemMsg}
    (h : m.Fragment d v image prev) (ha : m.addr = some a) (dst : Mem) (x : ℕ) :
    storeLines dst m a x = if Covers [m.run] (x/64) then image x else dst x := by
  rw [← storeLines_fragment h]
  simp only [applyMsgs, List.foldl_cons, List.foldl_nil, ha]

/-- Messages cut from one image put it on exactly the lines they carry. -/
theorem applyMsgs_image {image : Mem} (ms : List MemMsg)
    (h : ∀ m ∈ ms, ∃ d v prev, m.Fragment d v image prev) (dst : Mem) (x : ℕ) :
    (Covers (ms.map MemMsg.run) (x/64) → applyMsgs dst ms x = image x) ∧
    (¬Covers (ms.map MemMsg.run) (x/64) → applyMsgs dst ms x = dst x) := by
  induction ms generalizing dst with
  | nil => exact ⟨fun hc => absurd hc (covers_nil _), fun _ => rfl⟩
  | cons m ms ih =>
    obtain ⟨d, v, prev, hm⟩ := h m List.mem_cons_self
    obtain ⟨hin, hout⟩ := ih (fun m' hm' => h m' (List.mem_cons_of_mem _ hm')) (applyMsgs dst [m])
    have hone := storeLines_fragment hm dst x
    have hfold : applyMsgs dst (m :: ms) = applyMsgs (applyMsgs dst [m]) ms := rfl
    have hcons : Covers ((m :: ms).map MemMsg.run) (x/64) ↔
        Covers [m.run] (x/64) ∨ Covers (ms.map MemMsg.run) (x/64) := by
      rw [List.map_cons, ← covers_append]
      rfl
    rw [hfold, hcons]
    by_cases hc : Covers (ms.map MemMsg.run) (x/64)
    · exact ⟨fun _ => hin hc, fun hn => absurd (Or.inr hc) hn⟩
    · rw [hout hc, hone]
      constructor
      · rintro (h1 | h1)
        · rw [if_pos h1]
        · exact absurd h1 hc
      · intro hn
        rw [if_neg (fun h1 => hn (Or.inl h1))]

-- the log field is kept folded: a bare `rfl` makes the kernel evaluate `tasvirLog`
theorem NodeMem.receive_frame (mem : NodeMem) (booting : Bool) (m : MemMsg) (a : ℕ) :
    (mem.receive booting m a).rw = storeLines mem.rw m a ∧
    (mem.receive booting m a).ro = (if booting then storeLines mem.ro m a else mem.ro) ∧
    (mem.receive booting m a).log = tasvirLog mem.log (addrData+a) m.len ∧
    (mem.receive booting m a).lists = mem.lists := by
  unfold NodeMem.receive
  exact ⟨rfl, rfl, rfl, rfl⟩

/-- A message in its place: what the receiver becomes when the byte count matches. -/
def Receiver.accept (r : Receiver) (late : Bool) (m : MemMsg) (a : ℕ) : Receiver :=
  { r with
    mem := r.mem.receive r.booting m a
    lastSyncExtV := m.version
    lastSyncExtBytes := m.prevBytes+m.len
    ignore := false
    pending := !m.last
    active := r.active || m.last
    enqueue := m.last && (!r.booting && late) }

theorem accept_rw {d : AreaDesc} {v : ℕ} {image : Mem} {prev a : ℕ} {m : MemMsg}
    (h : m.Fragment d v image prev) (ha : m.addr = some a) (r : Receiver) (late : Bool) (x : ℕ) :
    (r.accept late m a).mem.rw x = if Covers [m.run] (x/64) then image x else r.mem.rw x := by
  simp only [Receiver.accept, (NodeMem.receive_frame _ _ _ _).1, storeLines_image h ha]

/-- A line is as in the version once no message that is still to come has it. -/
theorem accept_done {d : AreaDesc} {v : ℕ} {image : Mem} {prev a : ℕ} {m : MemMsg}
    {ms : List MemMsg} (h : m.Fragment d v image prev) (ha : m.addr = some a) (r : Receiver)
    (late : Bool) {x : ℕ}
    (hrw : ¬Covers ((m :: ms).map MemMsg.run) (x/64) → r.mem.rw x = image x)
    (hc : ¬Covers (ms.map MemMsg.run) (x/64)) : (r.accept late m a).mem.rw x = image x := by
  rw [accept_rw h ha]
  split_ifs with h1
  · rfl
  · apply hrw
    rw [List.map_cons, covers_cons]
    rintro (h2 | h2)
    · exact h1 ⟨m.run, List.mem_singleton.mpr rfl, h2⟩
    · exact hc h2

/-- The message is the next one of its version for this receiver. -/
def Receiver.InPlace (r : Receiver) (m : MemMsg) : Prop :=
  (r.lastSyncExtV ≠ m.version ∧ m.prevBytes = 0) ∨
  (r.lastSyncExtV = m.version ∧ r.pending = true ∧ r.ignore = false ∧
    r.lastSyncExtBytes = m.prevBytes)

theorem handle_accept (late full : Bool) (r : Receiver) (m : MemMsg) (a : ℕ)
    (hh : r.hasHeader = true) (he : r.enqueue = false) (ha : m.addr = some a)
    (hm : r.InPlace m) : r.handleMsgMem late full m = r.accept late m a := by
  have hstart : r.enter m = { r with
      lastSyncExtV := m.version, lastSyncExtBytes := m.prevBytes, ignore := false
      pending := true } := by
    rcases hm with ⟨hv, hb⟩ | ⟨hv, hp, hi, hb⟩
    · rw [Receiver.enter, if_pos hv, hb]
    · rw [Receiver.enter, if_neg (not_not.mpr hv), ← hv, ← hb, ← hi, ← hp]
  simp only [Receiver.handleMsgMem, hh, he, hstart, Bool.not_true, Bool.false_eq_true, ↓reduceIte,
    Bool.or_self, Receiver.checkBytes, ne_eq, not_true_eq_false, Receiver.store, ha,
    Receiver.finish, Receiver.accept]
  cases m.last
  · simp only [Bool.false_eq_true, ↓reduceIte, Bool.not_false, Bool.or_false, Bool.false_and]
  · simp only [↓reduceIte, Bool.not_true, Bool.or_true, Bool.true_and, Bool.false_or]

/-- A message of the version that is complete, or that is being ignored. -/
theorem handle_drop (late full : Bool) (r : Receiver) (m : MemMsg) (he : r.enqueue = false)
    (hv : r.lastSyncExtV = m.version) (hp : r.ignore = true ∨ r.pending = false) :
    r.handleMsgMem late full m = r := by
  have hstart : r.enter m = r := if_neg (not_not.mpr hv)
  have hcond : (r.ignore || !r.pending) = true := by
    rcases hp with hp | hp <;> rw [hp] <;> simp
  rw [Receiver.handleMsgMem, he]
  simp only [hstart, hcond, Bool.false_eq_true, ↓reduceIte, ite_self]

theorem handle_queue (late : Bool) (r : Receiver) (m : MemMsg) (hh : r.hasHeader = true)
    (he : r.enqueue = true) :
    r.handleMsgMem late false m = { r with ring := r.ring ++ [m] } := by
  simp only [Receiver.handleMsgMem, hh, he, Bool.not_true, Bool.false_eq_true, ↓reduceIte,
    Bool.not_false]

end Tasvir
