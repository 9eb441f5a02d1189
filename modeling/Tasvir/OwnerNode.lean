import Mathlib.Tactic
import Tasvir.External
import Tasvir.OwnerRun

/-! The node that owns an area: its daemon publishes a version after an internal
sync with changes and sends the area in its external syncs. -/
namespace Tasvir
open RunLength

/-- Offset of `time_us` in `tasvir_area_header`. -/
def offTime : ℕ := 80

structure OwnerNode where
  mem : NodeMem
  info : ℕ → LogInfo
  lastSyncExtUs : ℕ
  sleeping : Bool
  tx : TxState

def OwnerNode.logs (s : OwnerNode) : AreaLogs := ⟨s.mem.diff, s.info, s.lastSyncExtUs, s.sleeping⟩

/-- The daemon is thread 0 of its node. -/
def OwnerNode.ctx (s : OwnerNode) : SyncCtx :=
  { ro := s.mem.ro, rw := s.mem.rw, sl := s.mem.lists 0, tx := s.tx }

/-- `updated` of thread `t`. -/
def updatedBy (d : AreaDesc) (m : NodeMem) (t : ℕ) : ℕ :=
  (syncProcessChanges d true false { ro := m.ro, rw := m.rw, sl := m.lists t }).2

/-- The values of `updated` of all calls that end a thread's part of a job. -/
def syncUpdated (d : AreaDesc) (isLocal : Bool) : NodeMem → List SyncEvent → List ℕ
  | _, [] => []
  | m, .parse t o n :: evs => syncUpdated d isLocal (m.parse d isLocal t o n) evs
  | m, .process t :: evs => updatedBy d m t :: syncUpdated d isLocal (m.process d t) evs

/-- `has_changes`: the last thread's own count, or the 64-bit sum of all. -/
def hasChanges (updated : List ℕ) : Bool := updated.getLastD 0 != 0 || updated.sum%2^64 != 0

/-- The end of `tasvir_sync_internal_job` for a local area with changes. -/
def OwnerNode.publish (d : AreaDesc) (timeUs : ℕ) (s : OwnerNode) : OwnerNode :=
  let v := s.mem.rw (d.h+offVersion)
  { s with
    mem := { s.mem with
      ro := Function.update (Function.update s.mem.ro (d.h+offTime) timeUs) (d.h+offVersion) v
      rw := Function.update (Function.update s.mem.rw (d.h+offTime) timeUs) (d.h+offVersion) (v+1)
      diff := Function.update s.mem.diff 0
        (Function.update (s.mem.diff 0) 0 (s.mem.diff 0 0 ||| 1#64 <<< 62)) }
    info := Function.update s.info 0 { s.info 0 with versionEnd := v, endUs := timeUs }
    sleeping := false }

/-- A completed internal sync of the area. -/
def OwnerNode.internal (d : AreaDesc) (evs : List SyncEvent) (timeUs : ℕ) (s : OwnerNode) :
    OwnerNode :=
  let s' := { s with mem := syncEvents d true s.mem evs }
  if hasChanges (syncUpdated d true s.mem evs) then s'.publish d timeUs else s'

/-- `tasvir_sync_external_area` called by the daemon. -/
def OwnerNode.external (e : ExtCall) (s : OwnerNode) : OwnerNode :=
  let r := syncExternalArea e s.ctx s.logs
  { mem := { s.mem with
      ro := r.1.ro, rw := r.1.rw, diff := r.2.1.diff
      lists := Function.update s.mem.lists 0 r.1.sl }
    info := r.2.1.info, lastSyncExtUs := r.2.1.lastSyncExtUs, sleeping := r.2.1.sleeping
    tx := r.1.tx }

/-- The header fields that `publish` writes lie in front of the payload. -/
theorem AreaDesc.Payload.ne_header {d : AreaDesc} {x : ℕ} (h : d.Payload x) :
    x ≠ d.h+offVersion ∧ x ≠ d.h+offTime := by
  have h1 := h.1
  simp only [sizeofHeader] at h1
  simp only [offVersion, offTime]
  omega

theorem publish_payload {d : AreaDesc} (n : OwnerNode) (timeUs : ℕ) {x : ℕ} (hx : d.Payload x) :
    (n.publish d timeUs).mem.ro x = n.mem.ro x ∧ (n.publish d timeUs).mem.rw x = n.mem.rw x := by
  obtain ⟨h1, h2⟩ := hx.ne_header
  simp only [OwnerNode.publish, Function.update_of_ne h1, Function.update_of_ne h2, and_self]

theorem OwnerNode.internal_tx (d : AreaDesc) (evs : List SyncEvent) (timeUs : ℕ) (s : OwnerNode) :
    (s.internal d evs timeUs).tx = s.tx := by
  unfold OwnerNode.internal
  simp only
  split_ifs <;> rfl

theorem rw_parse (d : AreaDesc) (isLocal : Bool) (m : NodeMem) (t o n : ℕ) :
    (m.parse d isLocal t o n).rw = m.rw := by
  refine syncParseLog_keeps (P := fun c => c.rw = m.rw) (internalEnv d isLocal)
    (internalEnv_wf d isLocal) rfl o n { ro := m.ro, rw := m.rw, sl := m.lists t }
    (fun u => m.log (data2log (addrData+d.h)+u)) m.diff rfl (fun c s k h => h) ?_
  intro c h
  simp only [syncProcessChanges, processItems_internal, h]

theorem rw_process (d : AreaDesc) (m : NodeMem) (t : ℕ) : (m.process d t).rw = m.rw := by
  have hp := processItems_internal d true (m.lists t).l
    { ro := m.ro, rw := m.rw, sl := m.lists t }
  simp only [NodeMem.process, syncProcessChanges, hp]

/-- An internal sync never writes to the RW copy. -/
theorem rw_events (d : AreaDesc) (isLocal : Bool) (evs : List SyncEvent) (m : NodeMem) :
    (syncEvents d isLocal m evs).rw = m.rw := by
  induction evs generalizing m with
  | nil => rfl
  | cons ev evs ih =>
    refine (ih _).trans ?_
    cases ev with
    | parse t o n => exact rw_parse d isLocal m t o n
    | process t => exact rw_process d m t

/-- Publishing marks the second line, which holds the version. -/
theorem lineBit_markVersion (w : Words) (l : ℕ) :
    lineBit (Function.update w 0 (w 0 ||| 1#64 <<< 62)) l = (lineBit w l || decide (l = 1)) := by
  have hone (i : ℕ) (hi : i < 64) : (1#64 <<< 62).getMsbD i = decide (i = 1) := by
    interval_cases i <;> rfl
  by_cases h0 : l/64 = 0
  · rw [lineBit, h0, Function.update_self, BitVec.getMsbD_or, hone _ (Nat.mod_lt _ (by norm_num)),
      lineBit, h0]
    exact congrArg (Bool.or _) (decide_eq_decide.mpr (by omega))
  · rw [lineBit, Function.update_of_ne h0, decide_eq_false (by omega), Bool.or_false, lineBit]

/-- The three outcomes of an external call. -/
theorem syncExternalArea_cases (e : ExtCall) (c : SyncCtx) (a : AreaLogs) :
    (e.passes a = false ∧ syncExternalArea e c a = (c, a, 0)) ∨
    (e.passes a = true ∧ e.pivot a.info = 0 ∧ syncExternalArea e c a =
      ({ c with tx := { c.tx with lastSyncExtBytes := 0 } },
        { a with lastSyncExtUs := e.tdataTimeUs }, 0)) ∨
    (e.passes a = true ∧ 1 ≤ e.pivot a.info ∧
      let r := syncParseLog ⟨e.d, e.pivot a.info, some 1⟩ 0 e.d.offsetLogEnd
        { c with tx := { c.tx with lastSyncExtBytes := 0 } } (a.diff 0) a.diff
      let a' := { a with
        lastSyncExtUs := e.tdataTimeUs, diff := Function.update r.1.diff 0 r.1.log }
      syncExternalArea e c a = (r.1.scan.acc,
        if r.2 ≠ 0 then rotateLogs e.d e.ndataTimeUs (handOver a') else a', r.2)) := by
  cases hp : e.passes a
  · left
    simp only [syncExternalArea, hp, Bool.not_false, ↓reduceIte, true_and]
  · right
    by_cases h0 : e.pivot a.info = 0
    · left
      simp only [syncExternalArea, hp, h0, Bool.not_true, Bool.false_eq_true, ↓reduceIte, true_and]
    · right
      refine ⟨rfl, by omega, ?_⟩
      simp only [syncExternalArea, hp, h0, Bool.not_true, Bool.false_eq_true, ↓reduceIte]
      split_ifs <;> rfl

theorem externalEnv_wf (e : ExtCall) (info : ℕ → LogInfo) (h : 1 ≤ e.pivot info) :
    ParseEnv.Wf ⟨e.d, e.pivot info, some 1⟩ :=
  Or.inr ⟨h, (pivot_spec e info).1, rfl⟩

end Tasvir
