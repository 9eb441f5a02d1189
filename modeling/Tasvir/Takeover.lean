import Mathlib.Tactic
import Tasvir.LongRun
import Tasvir.Sender
import Tasvir.SyncWidths

/-! The daemon takes over an area of a thread of its node. Until then it reads and
updates the windows of the diff logs in the RO copy of the header; from then on it
reads the RW copy. -/
namespace Tasvir
open RunLength AgedLogs Machine

/-- Offset of `diff_log[k]` in `tasvir_area_header`; a log takes 40 bytes. -/
def offDiffLog (k : ℕ) : ℕ := 104+40*k

/-- `diff_log[k]` of a copy of the header, without the pointer to its bitmap. A field
sits whole in the cell of its first byte. -/
def infoIn (d : AreaDesc) (m : Mem) (k : ℕ) : LogInfo where
  versionStart := m (d.h+offDiffLog k)
  startUs := m (d.h+offDiffLog k+8)
  versionEnd := m (d.h+offDiffLog k+16)
  endUs := m (d.h+offDiffLog k+24)

/-- The four logs written back to a copy of the header. -/
def storeInfo (d : AreaDesc) (m : Mem) (info : ℕ → LogInfo) : Mem := fun x =>
  if d.h+offDiffLog 0 ≤ x ∧ x < d.h+offDiffLog nrAreaLogs then
    let l := info ((x-d.h-offDiffLog 0)/40)
    match (x-d.h-offDiffLog 0)%40 with
    | 0 => l.versionStart
    | 8 => l.startUs
    | 16 => l.versionEnd
    | 24 => l.endUs
    | _ => m x
  else m x

theorem infoIn_storeInfo (d : AreaDesc) (m : Mem) (info : ℕ → LogInfo) (k : ℕ) (hk : k < 4) :
    infoIn d (storeInfo d m info) k = info k := by
  have hcell (f : ℕ) (hf : f < 40) :
      (d.h+offDiffLog 0 ≤ d.h+offDiffLog k+f ∧ d.h+offDiffLog k+f < d.h+offDiffLog nrAreaLogs) ∧
      (d.h+offDiffLog k+f-d.h-offDiffLog 0)/40 = k ∧
      (d.h+offDiffLog k+f-d.h-offDiffLog 0)%40 = f := by
    simp only [offDiffLog, nrAreaLogs]
    omega
  obtain ⟨h0, hk0, hf0⟩ := hcell 0 (by norm_num)
  obtain ⟨h8, hk8, hf8⟩ := hcell 8 (by norm_num)
  obtain ⟨h16, hk16, hf16⟩ := hcell 16 (by norm_num)
  obtain ⟨h24, hk24, hf24⟩ := hcell 24 (by norm_num)
  rw [Nat.add_zero] at h0 hk0 hf0
  simp only [infoIn, storeInfo, h0, hk0, hf0, h8, hk8, hf8, h16, hk16, hf16, h24, hk24, hf24,
    and_self, ↓reduceIte]

/-- An owned area on its node. `mapped` says that the daemon's `d->h` is the RW copy. -/
structure HeaderNode where
  mem : NodeMem
  lastSyncExtUs : ℕ
  /-- TASVIR_AREA_FLAG_SLEEPING of the RO copy -/
  sleeping : Bool
  tx : TxState
  mapped : Bool
  /-- some external sync has found a line to send -/
  sent : Bool

namespace HeaderNode
variable (d : AreaDesc) (s : HeaderNode)

/-- What the daemon reads through `d->h`. -/
def view : Mem := if s.mapped then s.mem.rw else s.mem.ro

/-- What the daemon stores through `d->h`. -/
def setView (m : Mem) : HeaderNode :=
  if s.mapped then { s with mem := { s.mem with rw := m } }
  else { s with mem := { s.mem with ro := m } }

def logs : AreaLogs := ⟨s.mem.diff, infoIn d s.view, s.lastSyncExtUs, s.sleeping⟩

/-- The daemon is thread 0 of its node. -/
def ctx : SyncCtx := { ro := s.view, rw := s.mem.rw, sl := s.mem.lists 0, tx := s.tx }

/-- `tasvir_update_va` of the daemon. -/
def updateVa (isRw : Bool) : HeaderNode := { s with mapped := isRw }

/-- What `tasvir_update_owner` of the daemon, the new owner, does to its view of the
header; the owner's thread and the parent's learn of it by RPC. -/
def takeOver : HeaderNode := s.updateVa true

/-- The end of `tasvir_sync_internal_job` for a local area with changes, with the four
fields that it sets in both copies. -/
def publish (timeUs : ℕ) : HeaderNode :=
  let v := s.mem.rw (d.h+offVersion)
  let stamp (m : Mem) := Function.update (Function.update (Function.update m
    (d.h+offTime) timeUs) (d.h+offDiffLog 0+24) timeUs) (d.h+offDiffLog 0+16) v
  { s with
    mem := { s.mem with
      ro := Function.update (stamp s.mem.ro) (d.h+offVersion) v
      rw := Function.update (stamp s.mem.rw) (d.h+offVersion) (v+1)
      diff := Function.update s.mem.diff 0
        (Function.update (s.mem.diff 0) 0 (s.mem.diff 0 0 ||| 1#64 <<< 62)) }
    sleeping := false }

/-- A completed internal sync of the area. -/
def internal (evs : List SyncEvent) (timeUs : ℕ) : HeaderNode :=
  let s' := { s with mem := syncEvents d true s.mem evs }
  if hasChanges (syncUpdated d true s.mem evs) then s'.publish d timeUs else s'

/-- The logs after a step of the daemon, with the windows stored through `d->h`. -/
def withLogs (a : AreaLogs) : HeaderNode :=
  let s' := s.setView (storeInfo d s.view a.info)
  { s' with
    mem := { s'.mem with diff := a.diff }
    lastSyncExtUs := a.lastSyncExtUs, sleeping := a.sleeping }

/-- `tasvir_sync_external_area` called by the daemon. -/
def external (e : ExtCall) : HeaderNode :=
  let r := syncExternalArea e s.ctx (s.logs d)
  let s' := s.withLogs d r.2.1
  { s' with
    mem := { s'.mem with lists := Function.update s.mem.lists 0 r.1.sl }
    tx := r.1.tx
    sent := s.sent || decide (e.Sends (s.logs d)) }

/-- `tasvir_rotate_logs` called by the daemon. -/
def rotate (timeUs : ℕ) : HeaderNode := s.withLogs d (rotateLogs d timeUs (s.logs d))

end HeaderNode

inductive TakeAct
  /-- the owner writes and logs between two entries into sync -/
  | update (ops : List OwnerOp)
  | internal (evs : List SyncEvent) (timeUs : ℕ)
  | external (e : ExtCall)
  | rotate (timeUs : ℕ)

/-- Lines 2 and 3 of the header, with the windows of logs 1 to 3, are logged by
`tasvir_new` only. -/
def OwnerOp.SparesWindows (d : AreaDesc) : OwnerOp → Prop
  | .write _ _ => True
  | .log r => ¬d.Touches r (d.h/64+2) ∧ ¬d.Touches r (d.h/64+3)

/-- The fields of a log that the daemon's choice of a pivot and its rotations read. -/
structure LogInfo.Same (i j : LogInfo) : Prop where
  versionStart : i.versionStart = j.versionStart
  versionEnd : i.versionEnd = j.versionEnd
  endUs : i.endUs = j.endUs

/-- An area as `tasvir_new` leaves it on the node of an application thread: no log of
either copy has a version yet. The log of the owner is any. -/
structure HeaderNode.Created (d : AreaDesc) (s : HeaderNode) : Prop where
  ro : ∀ k < 4, (infoIn d s.mem.ro k).Same {}
  rw : ∀ k < 4, (infoIn d s.mem.rw k).Same {}
  lists : ∀ t, Foreign d (s.mem.lists t).l
  mapped : s.mapped = false
  sent : s.sent = false

/-- Runs of an area that an application thread owns throughout. -/
def takeoverSystem (d : AreaDesc) : System HeaderNode TakeAct where
  init := HeaderNode.Created d
  pre _ a := match a with
    | .update ops => ∀ op ∈ ops, op.Valid d ∧ op.SparesWindows d
    | .internal evs _ => Completes d evs
    | .external e => e.d = d
    | .rotate _ => True
  next s a := match a with
    | .update ops => { s with mem := s.mem.ops d ops }
    | .internal evs timeUs => s.internal d evs timeUs
    | .external e => s.external d e
    | .rotate timeUs => s.rotate d timeUs

/-- A takeover keeps the replication metadata: the windows of logs 1 to 3, the pivot for
all reported versions and times, and the lines of these logs that a call sends. -/
structure HeaderNode.TakeoverKeeps (d : AreaDesc) (s : HeaderNode) : Prop where
  windows : ∀ k, 1 ≤ k → k < 4 → ((s.takeOver.logs d).info k).Same ((s.logs d).info k)
  pivot : ∀ e : ExtCall, e.d = d → e.pivot (s.takeOver.logs d).info = e.pivot (s.logs d).info
  lines : ∀ e : ExtCall, e.d = d → ∀ l, ∀ p < e.pivot (s.logs d).info, 1 ≤ p →
    lineBit ((s.logs d).diff p) l = true →
    ∃ q < e.pivot (s.takeOver.logs d).info, lineBit ((s.takeOver.logs d).diff q) l = true

theorem pivotLoop_congr (e : ExtCall) {info info' : ℕ → LogInfo} (n pivot : ℕ)
    (h : ∀ k, pivot ≤ k → k < pivot+n → e.stopsAt info k = e.stopsAt info' k) :
    pivotLoop e info n pivot = pivotLoop e info' n pivot := by
  induction n generalizing pivot with
  | zero => rfl
  | succ n ih =>
    rw [pivotLoop, pivotLoop, h pivot le_rfl (by omega),
      ih (pivot+1) fun k h1 h2 => h k (by omega) (by omega)]

/-- The pivot depends only on where the four windows end. -/
theorem pivot_congr (e : ExtCall) {info info' : ℕ → LogInfo}
    (h : ∀ k < 4, (info k).versionEnd = (info' k).versionEnd ∧ (info k).endUs = (info' k).endUs) :
    e.pivot info = e.pivot info' := by
  rw [ExtCall.pivot, ExtCall.pivot]
  apply pivotLoop_congr
  intro k _ hk
  have hlt : k < 4 := by
    rw [nrAreaLogs] at hk
    split_ifs at hk <;> omega
  obtain ⟨h1, h2⟩ := h k hlt
  rw [ExtCall.stopsAt, ExtCall.stopsAt, h1, h2]

/-! What an internal sync does to a cell of the RO copy, whatever the length of the runs. -/

theorem copyItems_or (rw : Mem) (its : List SyncItem) (ro : Mem) (x : ℕ) :
    copyItems rw its ro x = ro x ∨ copyItems rw its ro x = rw x := by
  induction its generalizing ro with
  | nil => exact Or.inl rfl
  | cons it its ih =>
    rcases ih (storeVecRep ro rw (it.offsetScaled*64%2^64) (it.lenScaled*64%2^32)) with h | h
    · have hcell := storeVecLoop_apply ro rw (it.offsetScaled*64%2^64)
        ((it.lenScaled*64%2^32-1)/64+1) x
      rw [← storeVecRep] at hcell
      rw [hcell] at h
      split_ifs at h
      · exact Or.inr h
      · exact Or.inl h
    · exact Or.inr h

/-- A cell is left alone or copied from the RW copy. -/
theorem ro_events (d : AreaDesc) (isLocal : Bool) (evs : List SyncEvent) (m : NodeMem) (x : ℕ) :
    (syncEvents d isLocal m evs).ro x = m.ro x ∨ (syncEvents d isLocal m evs).ro x = m.rw x := by
  induction evs generalizing m with
  | nil => exact Or.inl rfl
  | cons ev evs ih =>
    have hev : (syncEvent d isLocal m ev).rw = m.rw ∧
        ((syncEvent d isLocal m ev).ro x = m.ro x ∨ (syncEvent d isLocal m ev).ro x = m.rw x) := by
      cases ev with
      | parse t o n =>
        refine syncParseLog_keeps (internalEnv d isLocal) (internalEnv_wf d isLocal) rfl o n
          { ro := m.ro, rw := m.rw, sl := m.lists t }
          (fun u => m.log (data2log (addrData+d.h)+u)) m.diff
          (P := fun c => c.rw = m.rw ∧ (c.ro x = m.ro x ∨ c.ro x = m.rw x))
          ⟨rfl, Or.inl rfl⟩ (fun c s k h => h) ?_
        rintro c ⟨hrw, hro⟩
        simp only [syncProcessChanges, processItems_internal, hrw, true_and]
        rcases copyItems_or m.rw c.sl.l c.ro x with h | h
        · rw [h]
          exact hro
        · exact Or.inr h
      | process t =>
        refine ⟨rw_process d m t, ?_⟩
        simp only [syncEvent, NodeMem.process, syncProcessChanges, processItems_internal]
        exact copyItems_or m.rw (m.lists t).l m.ro x
    have ht := ih (syncEvent d isLocal m ev)
    rw [hev.1] at ht
    rcases ht with h | h
    · exact hev.2.imp h.trans h.trans
    · exact Or.inr h

/-- Line `l` is clean, and no item that waits in a list copies it. -/
structure Spared (m : NodeMem) (l : ℕ) : Prop where
  clean : lineBit m.log l = false
  waiting : ∀ t, ∀ it ∈ (m.lists t).l, it.offsetScaled < 2^58 ∧
    ¬(it.copied.1 ≤ l ∧ l < it.copied.1+it.copied.2)

theorem Spared.of_foreign {d : AreaDesc} {m : NodeMem} {l : ℕ} (hl : d.Has l)
    (hclean : lineBit m.log l = false) (hf : ∀ t, Foreign d (m.lists t).l) : Spared m l := by
  refine ⟨hclean, ?_⟩
  intro t it hit
  obtain ⟨hfit, hout⟩ := hf t it hit
  rw [hfit.copied_eq]
  obtain ⟨h0, -, h2⟩ := hfit
  exact ⟨by omega, hout l hl⟩

/-- Items that do not copy a line leave its cells alone. -/
theorem copyItems_spared (rw : Mem) (its : List SyncItem) (ro : Mem) (x : ℕ)
    (h : ∀ it ∈ its, it.offsetScaled < 2^58 ∧
      ¬(it.copied.1 ≤ x/64 ∧ x/64 < it.copied.1+it.copied.2)) :
    copyItems rw its ro x = ro x := by
  apply (copyItems_copied rw its ro (fun it hit => (h it hit).1) x).2
  rintro ⟨r, hr, hin⟩
  obtain ⟨it, hit, rfl⟩ := List.mem_map.mp hr
  exact (h it hit).2 hin

section
variable {d : AreaDesc} (hd : d.Wf) (isLocal : Bool) {m : NodeMem} {x : ℕ}
include hd

/-- The items of a chunk copy no clean line: what is copied of a run is a part of it. -/
theorem Spared.parse (h : Spared m (x/64)) (t o n : ℕ) (ho : 32768 ∣ o) (hn : 32768 ∣ n)
    (hon : o+n ≤ d.offsetLogEnd) (hn0 : 0 < n) :
    Spared (m.parse d isLocal t o n) (x/64) ∧ (m.parse d isLocal t o n).ro x = m.ro x := by
  obtain ⟨-, -, done, hl, hro, -⟩ := syncParseLog_internal (internalEnv d isLocal)
    (internalEnv_wf d isLocal) rfl o n hn { ro := m.ro, rw := m.rw, sl := m.lists t }
    (fun u => m.log (data2log (addrData+d.h)+u)) m.diff
  -- the runs that are found consist of logged lines, and this one is not logged
  have hnew : ∀ it ∈ (chunkRuns (internalEnv d isLocal) o n
      (fun u => m.log (data2log (addrData+d.h)+u)) m.diff).allRuns.map toItem,
      it.offsetScaled < 2^58 ∧ ¬(it.copied.1 ≤ x/64 ∧ x/64 < it.copied.1+it.copied.2) := by
    intro it hit
    obtain ⟨r, hr, rfl⟩ := List.mem_map.mp hit
    have hpos : 0 < r.2 := Scan.pos_of_mem_allRuns _ (by simp [Scan.init]) _ r hr
    have hcov (l : ℕ) (h1 : r.1 ≤ l) (h2 : l < r.1+r.2) := (covers_chunkRuns
      (internalEnv d isLocal) o n (fun u => m.log (data2log (addrData+d.h)+u)) m.diff
      hd.h_aligned ho hn l).mp ⟨r, hr, h1, h2⟩
    obtain ⟨hstart, hlen, -⟩ := copied_toItem r hpos
    refine ⟨?_, ?_⟩
    · obtain ⟨-, hlt, -⟩ := hcov r.1 le_rfl (by omega)
      have hin := hd.inside
      simp only [toItem, internalEnv] at hlt ⊢
      omega
    · rintro ⟨h1, h2⟩
      obtain ⟨hlo, -, hset⟩ := hcov (x/64) (by omega) (by omega)
      simp only [internalEnv] at hlo
      rw [merged_internal, internalEnv,
        lineBit_base hd m o n ho hn hon hn0 (x/64) (by omega), h.clean] at hset
      exact Bool.noConfusion hset
  have hall : ∀ it ∈ done ++ ((m.parse d isLocal t o n).lists t).l, it.offsetScaled < 2^58 ∧
      ¬(it.copied.1 ≤ x/64 ∧ x/64 < it.copied.1+it.copied.2) := by
    have hlist : done ++ ((m.parse d isLocal t o n).lists t).l = (m.lists t).l ++ (chunkRuns
        (internalEnv d isLocal) o n (fun u => m.log (data2log (addrData+d.h)+u))
        m.diff).allRuns.map toItem := by
      simpa only [NodeMem.parse, Function.update_self] using hl.symm
    rw [hlist]
    intro it hit
    rcases List.mem_append.mp hit with hit | hit
    · exact h.waiting t it hit
    · exact hnew it hit
  refine ⟨⟨?_, ?_⟩, ?_⟩
  · rw [lineBit_parse hd isLocal m t o n ho hn hon hn0, h.clean, ite_self]
  · intro t' it hit
    by_cases ht : t' = t
    · subst ht
      exact hall it (List.mem_append_right _ hit)
    · simp only [NodeMem.parse, Function.update_of_ne ht] at hit
      exact h.waiting t' it hit
  · exact (congrFun hro x).trans
      (copyItems_spared m.rw done m.ro x fun it hit => hall it (List.mem_append_left _ hit))

/-- An internal sync does not touch a clean line, however long the runs of set lines. -/
theorem Spared.events (evs : List SyncEvent)
    (hal : ∀ t o n, .parse t o n ∈ evs → 32768 ∣ o ∧ 32768 ∣ n ∧ o+n ≤ d.offsetLogEnd ∧ 0 < n)
    (h : Spared m (x/64)) : (syncEvents d isLocal m evs).ro x = m.ro x := by
  induction evs generalizing m with
  | nil => rfl
  | cons ev evs ih =>
    have hev : Spared (syncEvent d isLocal m ev) (x/64) ∧
        (syncEvent d isLocal m ev).ro x = m.ro x := by
      cases ev with
      | parse t o n =>
        obtain ⟨ho, hn, hon, hn0⟩ := hal t o n List.mem_cons_self
        exact h.parse hd isLocal t o n ho hn hon hn0
      | process t =>
        refine ⟨⟨h.clean, ?_⟩, ?_⟩
        · intro t' it hit
          by_cases ht : t' = t
          · subst ht
            simp only [syncEvent, NodeMem.process, syncProcessChanges, Function.update_self,
              List.not_mem_nil] at hit
          · simp only [syncEvent, NodeMem.process, Function.update_of_ne ht] at hit
            exact h.waiting t' it hit
        · simp only [syncEvent, NodeMem.process, syncProcessChanges, processItems_internal]
          exact copyItems_spared m.rw (m.lists t).l m.ro x (h.waiting t)
    exact (ih (fun t o n hx => hal t o n (List.mem_cons_of_mem _ hx)) hev.1).trans hev.2

end

/-- Rotations leave the window of log 0 alone, and where the window of log 1 ends. -/
theorem rotateLogs_one (d : AreaDesc) (timeUs : ℕ) (a : AreaLogs) :
    ((rotateLogs d timeUs a).info 1).versionEnd = (a.info 1).versionEnd := by
  have hstep (a : AreaLogs) (i : ℕ) (hi : i = 1 ∨ i = 2) :
      ((rotateLog d timeUs a i).info 1).versionEnd = (a.info 1).versionEnd := by
    unfold rotateLog
    simp only
    split_ifs
    · rcases hi with rfl | rfl
      · simp only [Function.update_of_ne (show 1 ≠ 1+1 by norm_num), Function.update_self]
      · simp only [Function.update_of_ne (show 1 ≠ 2+1 by norm_num),
          Function.update_of_ne (show 1 ≠ 2 by norm_num)]
    · rfl
  exact (hstep _ 1 (Or.inl rfl)).trans (hstep a 2 (Or.inr rfl))

/-- Logs without a version are not rotated. -/
theorem rotateLogs_unused (d : AreaDesc) (timeUs : ℕ) (a : AreaLogs)
    (h : ∀ k, 1 ≤ k → k < 4 → (a.info k).versionEnd = 0) : rotateLogs d timeUs a = a := by
  have hstep (i : ℕ) (h1 : 1 ≤ i) (h4 : i < 4) : rotateLog d timeUs a i = a := by
    unfold rotateLog
    simp only
    rw [if_neg]
    rintro ⟨hlt, -⟩
    rw [h i h1 h4] at hlt
    exact Nat.not_lt_zero _ hlt
  change rotateLog d timeUs (rotateLog d timeUs a 2) 1 = a
  rw [hstep 2 (by norm_num) (by norm_num), hstep 1 le_rfl (by norm_num)]

/-- What an external call does to the windows: nothing unless it sends a line, and then
log 1 ends at the version of log 0, which the gates have found to be set. -/
theorem external_info (e : ExtCall) (hd : e.d.Wf) (c : SyncCtx) (a : AreaLogs) :
    (¬e.Sends a → (syncExternalArea e c a).2.1.info = a.info) ∧
    (e.Sends a → ((syncExternalArea e c a).2.1.info 1).versionEnd ≠ 0 ∧
      ((syncExternalArea e c a).2.1.info 0).versionEnd = (a.info 0).versionEnd ∧
      ((syncExternalArea e c a).2.1.info 0).endUs = (a.info 0).endUs) := by
  rcases syncExternalArea_cases e c a with ⟨hp, hr⟩ | ⟨hp, h0, hr⟩ | ⟨hp, h1, hr⟩
  · rw [hr]
    refine ⟨fun _ => rfl, ?_⟩
    rintro ⟨hpass, -⟩
    rw [hp] at hpass
    exact Bool.noConfusion hpass
  · rw [hr]
    refine ⟨fun _ => rfl, ?_⟩
    rintro ⟨-, p, hlt, -⟩
    omega
  · have hsends : e.Sends a ↔ (syncParseLog ⟨e.d, e.pivot a.info, some 1⟩ 0 e.d.offsetLogEnd
        { c with tx := { c.tx with lastSyncExtBytes := 0 } } (a.diff 0) a.diff).2 ≠ 0 := by
      rw [Ne, syncParseLog_bytes_zero hd _ (externalEnv_wf e a.info h1), ExtCall.Sends]
      constructor
      · rintro ⟨-, p, hlt, l, hl, hbit⟩ hclear
        have hm := (lineBit_merged ⟨e.d, e.pivot a.info, some 1⟩ h1 a.diff l).mpr ⟨p, hlt, hbit⟩
        rw [hclear l hl] at hm
        exact Bool.noConfusion hm
      · intro hne
        push Not at hne
        obtain ⟨l, hl, hbit⟩ := hne
        rw [Bool.ne_false_iff, lineBit_merged ⟨e.d, e.pivot a.info, some 1⟩ h1] at hbit
        obtain ⟨p, hlt, hbit⟩ := hbit
        exact ⟨hp, p, hlt, l, hl, hbit⟩
    have hver : (a.info 0).versionEnd ≠ 0 := by
      simp only [ExtCall.passes, Bool.and_eq_true, bne_iff_ne] at hp
      exact hp.1.2
    rw [hr, hsends]
    generalize syncParseLog ⟨e.d, e.pivot a.info, some 1⟩ 0 e.d.offsetLogEnd
      { c with tx := { c.tx with lastSyncExtBytes := 0 } } (a.diff 0) a.diff = r
    simp only
    refine ⟨fun h => by rw [if_neg h], ?_⟩
    intro h
    rw [if_pos h, rotateLogs_one, (rotateLogs_zero _ _ _).2]
    simp only [handOver, Function.update_of_ne (show 1 ≠ 0 by norm_num), Function.update_self,
      and_self, and_true]
    exact hver

/-- What a run keeps. The RW windows of logs 1 to 3 are those of `tasvir_new`; the RO
ones are too until a call sends a line, and never again afterwards, because their line is
clean by then. -/
structure TakeInv (d : AreaDesc) (s : HeaderNode) : Prop where
  mapped : s.mapped = false
  rw : ∀ k, 1 ≤ k → k < 4 → (infoIn d s.mem.rw k).Same {}
  zero : (infoIn d s.mem.ro 0).versionEnd = (infoIn d s.mem.rw 0).versionEnd ∧
    (infoIn d s.mem.ro 0).endUs = (infoIn d s.mem.rw 0).endUs
  quiet : s.sent = false → ∀ k, 1 ≤ k → k < 4 → (infoIn d s.mem.ro k).Same {}
  sent : s.sent = true → (infoIn d s.mem.ro 1).versionEnd ≠ 0
  clean : s.sent = true ∨ (infoIn d s.mem.ro 0).versionEnd ≠ 0 →
    lineBit s.mem.log (d.h/64+2) = false
  lists : ∀ t, Foreign d (s.mem.lists t).l

namespace HeaderNode
variable {d : AreaDesc} {s : HeaderNode}

theorem logs_of_unmapped (h : s.mapped = false) :
    s.logs d = ⟨s.mem.diff, infoIn d s.mem.ro, s.lastSyncExtUs, s.sleeping⟩ := by
  simp only [logs, view, h, Bool.false_eq_true, ↓reduceIte]

theorem withLogs_of_unmapped (h : s.mapped = false) (a : AreaLogs) :
    (s.withLogs d a).mem.ro = storeInfo d s.mem.ro a.info ∧
    (s.withLogs d a).mem.rw = s.mem.rw ∧ (s.withLogs d a).mem.log = s.mem.log ∧
    (s.withLogs d a).mem.lists = s.mem.lists ∧ (s.withLogs d a).mapped = false ∧
    (s.withLogs d a).sent = s.sent := by
  simp only [withLogs, setView, view, h, Bool.false_eq_true, ↓reduceIte, and_self]

/-- Publishing moves the window of log 0 in both copies, and no other. -/
theorem publish_info (timeUs k : ℕ) (h1 : 1 ≤ k) :
    infoIn d (s.publish d timeUs).mem.ro k = infoIn d s.mem.ro k ∧
    infoIn d (s.publish d timeUs).mem.rw k = infoIn d s.mem.rw k := by
  have hne (o : ℕ) (ho : offDiffLog 1 ≤ o) : d.h+o ≠ d.h+offTime ∧ d.h+o ≠ d.h+offVersion ∧
      d.h+o ≠ d.h+offDiffLog 0+16 ∧ d.h+o ≠ d.h+offDiffLog 0+24 := by
    simp only [offDiffLog, offTime, offVersion] at ho ⊢
    omega
  have hcell (o : ℕ) (ho : offDiffLog 1 ≤ o) :
      (s.publish d timeUs).mem.ro (d.h+o) = s.mem.ro (d.h+o) ∧
      (s.publish d timeUs).mem.rw (d.h+o) = s.mem.rw (d.h+o) := by
    obtain ⟨h1, h2, h3, h4⟩ := hne o ho
    simp only [publish, Function.update_of_ne h1, Function.update_of_ne h2,
      Function.update_of_ne h3, Function.update_of_ne h4, and_self]
  have hle (f : ℕ) : offDiffLog 1 ≤ offDiffLog k+f := by
    simp only [offDiffLog]
    omega
  simp only [infoIn, Nat.add_assoc, hcell _ (hle 8), hcell _ (hle 16), hcell _ (hle 24),
    hcell _ (Nat.add_zero _ ▸ hle 0), and_self]

theorem publish_info_zero (timeUs : ℕ) :
    (infoIn d (s.publish d timeUs).mem.ro 0).versionEnd =
      (infoIn d (s.publish d timeUs).mem.rw 0).versionEnd ∧
    (infoIn d (s.publish d timeUs).mem.ro 0).endUs =
      (infoIn d (s.publish d timeUs).mem.rw 0).endUs := by
  have h1 : d.h+offDiffLog 0+16 ≠ d.h+offVersion ∧ d.h+offDiffLog 0+24 ≠ d.h+offVersion ∧
      d.h+offDiffLog 0+24 ≠ d.h+offDiffLog 0+16 := by
    simp only [offDiffLog, offVersion]
    omega
  simp only [infoIn, publish, Function.update_of_ne h1.1, Function.update_of_ne h1.2.1,
    Function.update_of_ne h1.2.2, Function.update_self, and_self]

end HeaderNode

section
variable {d : AreaDesc} (hd : d.Wf) {s : HeaderNode}

/-- A step of the daemon that stores windows in the RO copy. -/
theorem TakeInv.stored {s' : HeaderNode} (h : TakeInv d s) (info : ℕ → LogInfo)
    (hro : s'.mem.ro = storeInfo d s.mem.ro info) (hrw : s'.mem.rw = s.mem.rw)
    (hlog : s'.mem.log = s.mem.log) (hlists : ∀ t, Foreign d (s'.mem.lists t).l)
    (hmapped : s'.mapped = false)
    (hzero : (info 0).versionEnd = (infoIn d s.mem.ro 0).versionEnd ∧
      (info 0).endUs = (infoIn d s.mem.ro 0).endUs)
    (hquiet : s'.sent = false → ∀ k, 1 ≤ k → k < 4 → (info k).Same {})
    (hsent : s'.sent = true → (info 1).versionEnd ≠ 0 ∧
      (s.sent = true ∨ (infoIn d s.mem.ro 0).versionEnd ≠ 0)) : TakeInv d s' := by
  have hread (k : ℕ) (hk : k < 4) : infoIn d s'.mem.ro k = info k := by
    rw [hro, infoIn_storeInfo d _ _ k hk]
  refine ⟨hmapped, ?_, ?_, ?_, ?_, ?_, hlists⟩
  · rw [hrw]
    exact h.rw
  · rw [hrw, hread 0 (by norm_num), hzero.1, hzero.2]
    exact h.zero
  · intro hs k h1 h4
    rw [hread k h4]
    exact hquiet hs k h1 h4
  · intro hs
    rw [hread 1 (by norm_num)]
    exact (hsent hs).1
  · rw [hlog, hread 0 (by norm_num), hzero.1]
    rintro (hs | hs)
    · exact h.clean (hsent hs).2
    · exact h.clean (Or.inr hs)

theorem TakeInv.rotate (h : TakeInv d s) (timeUs : ℕ) : TakeInv d (s.rotate d timeUs) := by
  have hlogs := HeaderNode.logs_of_unmapped (d := d) h.mapped
  obtain ⟨hro, hrw, hlog, hlists, hmapped, hsent⟩ := HeaderNode.withLogs_of_unmapped (d := d)
    h.mapped (rotateLogs d timeUs (s.logs d))
  refine h.stored _ hro hrw hlog ?_ hmapped ?_ ?_ ?_
  · intro t
    rw [HeaderNode.rotate, hlists]
    exact h.lists t
  · rw [(rotateLogs_zero _ _ _).2, hlogs]
    exact ⟨rfl, rfl⟩
  · intro hs
    rw [HeaderNode.rotate, hsent] at hs
    rw [rotateLogs_unused, hlogs]
    · exact h.quiet hs
    · intro k h1 h4
      rw [hlogs]
      exact (h.quiet hs k h1 h4).versionEnd
  · intro hs
    rw [HeaderNode.rotate, hsent] at hs
    rw [rotateLogs_one, hlogs]
    exact ⟨h.sent hs, Or.inl hs⟩

include hd

theorem TakeInv.external (h : TakeInv d s) (e : ExtCall) (he : e.d = d) :
    TakeInv d (s.external d e) := by
  subst he
  have hlogs := HeaderNode.logs_of_unmapped (d := e.d) h.mapped
  obtain ⟨hro, hrw, hlog, -, hmapped, -⟩ := HeaderNode.withLogs_of_unmapped (d := e.d)
    h.mapped (syncExternalArea e s.ctx (s.logs e.d)).2.1
  obtain ⟨hkeep, hmove⟩ := external_info e hd s.ctx (s.logs e.d)
  have hinfo : (s.logs e.d).info = infoIn e.d s.mem.ro := by rw [hlogs]
  rw [hinfo] at hkeep hmove
  refine h.stored _ hro hrw hlog ?_ hmapped ?_ ?_ ?_
  · intro t
    by_cases ht : t = 0
    · subst ht
      simp only [HeaderNode.external, Function.update_self]
      rcases (external_frame e hd.end_aligned s.ctx (s.logs e.d)).2 with hl | hl | hl
      · rw [hl]
        exact h.lists 0
      · rw [hl]
        exact (h.lists 0).append (rootItems_foreign e.d hd)
      · rw [hl]
        exact fun it hit => absurd hit List.not_mem_nil
    · simp only [HeaderNode.external, Function.update_of_ne ht]
      exact h.lists t
  · by_cases hs : e.Sends (s.logs e.d)
    · exact (hmove hs).2
    · rw [hkeep hs]
      exact ⟨rfl, rfl⟩
  · intro hs
    simp only [HeaderNode.external, Bool.or_eq_false_iff, decide_eq_false_iff_not] at hs
    rw [hkeep hs.2]
    exact h.quiet hs.1
  · intro hs
    simp only [HeaderNode.external, Bool.or_eq_true, decide_eq_true_iff] at hs
    by_cases hse : e.Sends (s.logs e.d)
    · have hgate := hse.1
      simp only [ExtCall.passes, Bool.and_eq_true, bne_iff_ne, hinfo] at hgate
      exact ⟨(hmove hse).1, Or.inr hgate.1.2⟩
    · rw [hkeep hse]
      have hsent := hs.resolve_right hse
      exact ⟨h.sent hsent, Or.inl hsent⟩

theorem TakeInv.update (h : TakeInv d s) (ops : List OwnerOp)
    (hops : ∀ op ∈ ops, op.Valid d ∧ op.SparesWindows d) :
    TakeInv d { s with mem := s.mem.ops d ops } := by
  have hvalid : ∀ op ∈ ops, op.Valid d := fun op hop => (hops op hop).1
  obtain ⟨hro, -, hlists, -⟩ := ops_frame (d := d) ops s.mem
  have hrw (k : ℕ) (hk : k < 4) : infoIn d (s.mem.ops d ops).rw k = infoIn d s.mem.rw k := by
    have hcell (f : ℕ) (hf : f < 40) := ops_header ops hvalid s.mem (offDiffLog k+f)
      (by simp only [offDiffLog, sizeofHeader]; omega)
    have h0 := hcell 0 (by norm_num)
    rw [Nat.add_zero] at h0
    simp only [infoIn, Nat.add_assoc, h0, hcell 8 (by norm_num), hcell 16 (by norm_num),
      hcell 24 (by norm_num)]
  refine ⟨h.mapped, ?_, ?_, ?_, ?_, ?_, ?_⟩
  · intro k h1 h4
    simp only [hrw k h4]
    exact h.rw k h1 h4
  · simp only [hrw 0 (by norm_num), hro]
    exact h.zero
  · simp only [hro]
    exact h.quiet
  · simp only [hro]
    exact h.sent
  · simp only [hro]
    intro hs
    rw [← Bool.not_eq_true, lineBit_ops hd ops hvalid]
    rintro (hset | ⟨r, hr, ht⟩)
    · rw [h.clean hs] at hset
      exact Bool.noConfusion hset
    · exact (hops _ (mem_logsOf.mp hr)).2.1 ht
  · simp only [hlists]
    exact h.lists

/-- The parsing and copying part of an internal sync. -/
theorem TakeInv.synced (hpos : 0 < d.offsetLogEnd) (h : TakeInv d s) (evs : List SyncEvent)
    (hev : Completes d evs) :
    TakeInv d { s with mem := syncEvents d true s.mem evs } ∧
    lineBit (syncEvents d true s.mem evs).log (d.h/64+2) = false := by
  obtain ⟨a, ha⟩ := hd.h_aligned
  obtain ⟨b, hb⟩ := hd.end_aligned
  have hhas : d.Has (d.h/64+2) := ⟨by omega, by omega⟩
  have hrw := rw_events d true evs s.mem
  have hclear := hev.log_clear hd true s.mem _ hhas
  have hro := ro_events d true evs s.mem
  -- where both copies agree, a copied cell does not change
  have hsame (x v : ℕ) (h1 : s.mem.ro x = v) (h2 : s.mem.rw x = v) :
      (syncEvents d true s.mem evs).ro x = v := by
    rcases hro x with hx | hx
    · rw [hx, h1]
    · rw [hx, h2]
  refine ⟨⟨h.mapped, ?_, ?_, ?_, ?_, fun _ => hclear, ?_⟩, hclear⟩
  · simp only [hrw]
    exact h.rw
  · simp only [hrw]
    exact ⟨hsame _ _ h.zero.1 rfl, hsame _ _ h.zero.2 rfl⟩
  · intro hs k h1 h4
    have hq := h.quiet hs k h1 h4
    have hr := h.rw k h1 h4
    exact ⟨hsame _ _ hq.versionStart hr.versionStart, hsame _ _ hq.versionEnd hr.versionEnd,
      hsame _ _ hq.endUs hr.endUs⟩
  · intro hs
    have hline : (d.h+offDiffLog 1+16)/64 = d.h/64+2 := by
      simp only [offDiffLog]
      omega
    have hspared : Spared s.mem ((d.h+offDiffLog 1+16)/64) := by
      rw [hline]
      exact Spared.of_foreign hhas (h.clean (Or.inl hs)) h.lists
    have hcell := hspared.events hd true evs hev.aligned
    simp only [infoIn, hcell]
    exact h.sent hs
  · intro t
    obtain ⟨h1, h2⟩ := lists_events d true t evs (fun p o n q hx => hev.flushed p t o n q hx) s.mem
    by_cases hp : .process t ∈ evs
    · simp only [(h1 hp).1]
      exact fun it hit => absurd hit List.not_mem_nil
    · simp only [h2 hp]
      exact h.lists t

omit hd in
theorem TakeInv.publish (h : TakeInv d s) (hclean : lineBit s.mem.log (d.h/64+2) = false)
    (timeUs : ℕ) : TakeInv d (s.publish d timeUs) := by
  refine ⟨h.mapped, ?_, HeaderNode.publish_info_zero timeUs, ?_, ?_, fun _ => hclean, h.lists⟩
  · intro k h1 h4
    rw [(HeaderNode.publish_info timeUs k h1).2]
    exact h.rw k h1 h4
  · intro hs k h1 h4
    rw [(HeaderNode.publish_info timeUs k h1).1]
    exact h.quiet hs k h1 h4
  · intro hs
    rw [(HeaderNode.publish_info timeUs 1 le_rfl).1]
    exact h.sent hs

theorem TakeInv.internal (hpos : 0 < d.offsetLogEnd) (h : TakeInv d s) (evs : List SyncEvent)
    (hev : Completes d evs) (timeUs : ℕ) : TakeInv d (s.internal d evs timeUs) := by
  obtain ⟨hs, hclean⟩ := h.synced hd hpos evs hev
  rw [HeaderNode.internal]
  split_ifs
  · exact hs.publish hclean timeUs
  · exact hs

theorem takeInv_reachable (hpos : 0 < d.offsetLogEnd) (h : (takeoverSystem d).Reachable s) :
    TakeInv d s := by
  apply h.invariant
  · intro s hs
    have hro := hs.ro 0 (by norm_num)
    have hrw := hs.rw 0 (by norm_num)
    refine ⟨hs.mapped, fun k _ => hs.rw k, ?_, fun _ k _ => hs.ro k, ?_, ?_, hs.lists⟩
    · exact ⟨hro.versionEnd.trans hrw.versionEnd.symm, hro.endUs.trans hrw.endUs.symm⟩
    · intro hsent
      rw [hs.sent] at hsent
      exact Bool.noConfusion hsent
    · rintro (hsent | hne)
      · rw [hs.sent] at hsent
        exact Bool.noConfusion hsent
      · exact absurd hro.versionEnd hne
  · intro s a hs ha
    cases a with
    | update ops => exact hs.update hd ops ha
    | internal evs timeUs => exact hs.internal hd hpos evs ha timeUs
    | external e => exact hs.external hd e ha
    | rotate timeUs => exact hs.rotate timeUs

end

/-- The daemon's step leaves the windows where they are: an external sync finds no line
to send. -/
def QuietStep (d : AreaDesc) (s : HeaderNode) : TakeAct → Prop
  | .external e => ¬e.Sends (s.logs d)
  | _ => True

theorem sent_of_quiet {d : AreaDesc} {s : HeaderNode}
    (h : ((takeoverSystem d).restrict (QuietStep d)).Reachable s) : s.sent = false := by
  apply h.invariant
  · intro s hs
    exact hs.sent
  · rintro s a hs ⟨-, hquiet⟩
    cases a with
    | update ops => exact hs
    | internal evs timeUs =>
      simp only [System.restrict, takeoverSystem, HeaderNode.internal]
      split_ifs
      · exact hs
      · exact hs
    | external e =>
      simp only [System.restrict, takeoverSystem, HeaderNode.external, hs, Bool.false_or,
        decide_eq_false_iff_not]
      exact hquiet
    | rotate timeUs =>
      simp only [System.restrict, takeoverSystem, HeaderNode.rotate, HeaderNode.withLogs,
        HeaderNode.setView]
      split_ifs
      · exact hs
      · exact hs

section
variable {d : AreaDesc} {s : HeaderNode}

theorem TakeInv.logs_takeOver (h : TakeInv d s) :
    (s.logs d).info = infoIn d s.mem.ro ∧ (s.takeOver.logs d).info = infoIn d s.mem.rw ∧
    (s.takeOver.logs d).diff = (s.logs d).diff := by
  simp only [HeaderNode.logs, HeaderNode.view, HeaderNode.takeOver, HeaderNode.updateVa, h.mapped,
    Bool.false_eq_true, ↓reduceIte, and_self]

theorem TakeInv.keeps_iff (h : TakeInv d s) : s.TakeoverKeeps d ↔ s.sent = false := by
  obtain ⟨hbefore, hafter, hdiff⟩ := h.logs_takeOver
  constructor
  · intro hk
    rw [← Bool.not_eq_true]
    intro hs
    have hwin := (hk.windows 1 le_rfl (by norm_num)).versionEnd
    rw [hbefore, hafter, (h.rw 1 le_rfl (by norm_num)).versionEnd] at hwin
    exact h.sent hs hwin.symm
  · intro hs
    have hwin : ∀ k, 1 ≤ k → k < 4 → (infoIn d s.mem.rw k).Same (infoIn d s.mem.ro k) := by
      intro k h1 h4
      obtain ⟨h2, h3, h5⟩ := h.rw k h1 h4
      obtain ⟨h6, h7, h8⟩ := h.quiet hs k h1 h4
      exact ⟨h2.trans h6.symm, h3.trans h7.symm, h5.trans h8.symm⟩
    have hpivot (e : ExtCall) : e.pivot (infoIn d s.mem.rw) = e.pivot (infoIn d s.mem.ro) := by
      apply pivot_congr
      intro k hk
      by_cases h0 : k = 0
      · subst h0
        exact ⟨h.zero.1.symm, h.zero.2.symm⟩
      · obtain ⟨-, h1, h2⟩ := hwin k (by omega) hk
        exact ⟨h1, h2⟩
    refine ⟨?_, ?_, ?_⟩
    · rw [hbefore, hafter]
      exact hwin
    · intro e _
      rw [hbefore, hafter]
      exact hpivot e
    · intro e _ l p hp _ hbit
      rw [hbefore] at hp
      rw [hafter, hdiff, hpivot e]
      exact ⟨p, hp, hbit⟩

end

/-- Takeovers and the replication metadata. While no external sync of the area has sent a
line, a takeover leaves the windows of logs 1 to 3, the pivots and the lines to send as
they were. The first line sent moves the window of log 1 in the RO copy, and the daemon
never again reads the same windows after a takeover as before. -/
theorem takeover_keeps_windows_iff (d : AreaDesc) (hd : d.Wf) (hpos : 0 < d.offsetLogEnd) :
    (∀ s, ((takeoverSystem d).restrict (QuietStep d)).Reachable s → s.TakeoverKeeps d) ∧
    ∀ s, (takeoverSystem d).Reachable s → (s.TakeoverKeeps d ↔ s.sent = false) := by
  constructor
  · intro s h
    exact (takeInv_reachable hd hpos h.of_restrict).keeps_iff.mpr (sent_of_quiet h)
  · intro s h
    exact (takeInv_reachable hd hpos h).keeps_iff

/-- A new area of the smallest size: `tasvir_new` has logged its header from the second
line on. -/
def createdNode : HeaderNode where
  mem := emptyMem.ops (areaOf 32768) [.log (64, 1280)]
  lastSyncExtUs := 0
  sleeping := false
  tx := {}
  mapped := false
  sent := false

theorem headerLog_valid : ∀ op ∈ [OwnerOp.log (64, 1280)], op.Valid (areaOf 32768) := by
  intro op hop
  rw [List.mem_singleton.mp hop]
  exact ⟨by norm_num, by norm_num [areaOf]⟩

theorem createdNode_created : createdNode.Created (areaOf 32768) := by
  obtain ⟨hro, -, hlists, -⟩ := ops_frame (d := areaOf 32768) [.log (64, 1280)] emptyMem
  have hcell (k f : ℕ) (hk : k < 4) (hf : f < 40) :
      createdNode.mem.rw ((areaOf 32768).h+(offDiffLog k+f)) = 0 := by
    have hlt : offDiffLog k+f < sizeofHeader := by
      simp only [offDiffLog, sizeofHeader]
      omega
    have hne : (areaOf 32768).h+(offDiffLog k+f) ≠ 32768+72 := by
      simp only [areaOf, offDiffLog]
      omega
    refine (ops_header _ headerLog_valid emptyMem _ hlt).trans ?_
    exact if_neg hne
  refine ⟨?_, ?_, ?_, rfl, rfl⟩
  · intro k _
    simp only [createdNode, hro]
    exact ⟨rfl, rfl, rfl⟩
  · intro k hk
    exact ⟨hcell k 0 hk (by norm_num), hcell k 16 hk (by norm_num), hcell k 24 hk (by norm_num)⟩
  · intro t it hit
    simp only [createdNode, hlists] at hit
    exact absurd hit List.not_mem_nil

/-- The first internal sync publishes version 1 of the new area. -/
theorem createdNode_internal : ∃ s, (takeoverSystem (areaOf 32768)).Reachable s ∧ s.sent = false ∧
    (infoIn (areaOf 32768) s.mem.ro 0).versionEnd = 1 ∧
    lineBit (s.mem.diff 0) 1 = true ∧ s.lastSyncExtUs = 0 ∧ s.sleeping = false := by
  have hd := areaOf_wf (n := 32768) ⟨1, rfl⟩ (by norm_num)
  have hpos : 0 < (areaOf 32768).offsetLogEnd := by norm_num [areaOf]
  have hev : Completes (areaOf 32768) [.parse 0 0 32768, .process 0] := completes_whole _ hd hpos
  obtain ⟨-, -, hlists, -⟩ := ops_frame (d := areaOf 32768) [.log (64, 1280)] emptyMem
  have hempty (t : ℕ) : createdNode.mem.lists t = {} := by
    simp only [createdNode, hlists]
    rfl
  have hversion : createdNode.mem.rw ((areaOf 32768).h+offVersion) = 1 :=
    ops_header _ headerLog_valid emptyMem offVersion (by norm_num [offVersion, sizeofHeader])
  have hdirty : lineBit createdNode.mem.log ((areaOf 32768).h/64+1) = true := by
    rw [createdNode, lineBit_ops hd _ headerLog_valid]
    exact Or.inr ⟨(64, 1280), by simp [logsOf], by norm_num [areaOf], by norm_num [areaOf]⟩
  have hchanges : hasChanges (syncUpdated (areaOf 32768) true createdNode.mem
      [.parse 0 0 32768, .process 0]) = true := by
    rw [← Bool.not_eq_false]
    intro hno
    simp only [hasChanges, Bool.or_eq_false_iff, bne_eq_false_iff_eq] at hno
    have hclean := clean_of_sum_zero hd createdNode.mem true _ hev (fun t => by rw [hempty])
      (fun t _ => by rw [hempty]) (by rw [hempty]; norm_num [areaOf]) hno.2 _
      ⟨Nat.le_add_right _ 1, by norm_num [areaOf]⟩
    rw [hdirty] at hclean
    exact Bool.noConfusion hclean
  have hinit : (takeoverSystem (areaOf 32768)).Reachable createdNode := .init createdNode_created
  have hreach : (takeoverSystem (areaOf 32768)).Reachable
      (createdNode.internal (areaOf 32768) [.parse 0 0 32768, .process 0] 5) :=
    hinit.step (a := TakeAct.internal [.parse 0 0 32768, .process 0] 5) hev
  have hrw := rw_events (areaOf 32768) true [.parse 0 0 32768, .process 0] createdNode.mem
  rw [HeaderNode.internal, if_pos hchanges] at hreach
  generalize syncEvents (areaOf 32768) true createdNode.mem [.parse 0 0 32768, .process 0] = m at *
  refine ⟨_, hreach, rfl, ?_, ?_, rfl, rfl⟩
  · simp only [infoIn, HeaderNode.publish]
    rw [Function.update_of_ne (by norm_num [offDiffLog, offVersion]), Function.update_self, hrw,
      hversion]
  · simp only [HeaderNode.publish, Function.update_self]
    rw [lineBit_markVersion, decide_eq_true rfl, Bool.or_true]

/-- A takeover after the first internal sync keeps the metadata. -/
theorem takeover_keeps_published : ∃ s, (takeoverSystem (areaOf 32768)).Reachable s ∧
    (infoIn (areaOf 32768) s.mem.ro 0).versionEnd = 1 ∧ s.TakeoverKeeps (areaOf 32768) := by
  obtain ⟨s, hreach, hsent, hv, -⟩ := createdNode_internal
  have hiff := (takeover_keeps_windows_iff (areaOf 32768) (areaOf_wf ⟨1, rfl⟩ (by norm_num))
    (by norm_num [areaOf])).2 s hreach
  exact ⟨s, hreach, hv, hiff.mpr hsent⟩

/-- A subscriber without a version needs only log 0 of an area whose log 1 has no version. -/
theorem firstCall_pivot (n : ℕ) {info : ℕ → LogInfo} (h0 : (info 0).versionEnd = 1)
    (h1 : (info 1).Same {}) : (firstCall n).pivot info = 1 := by
  have hgo : (firstCall n).stopsAt info 0 = false := by
    simp only [ExtCall.stopsAt, h0, firstCall]
    exact Bool.and_false _
  have hstop : (firstCall n).stopsAt info 1 = true := by
    simp only [ExtCall.stopsAt, h1.versionEnd, h1.endUs, firstCall]
    decide
  change pivotLoop (firstCall n) info 4 0 = 1
  rw [pivotLoop, hgo, pivotLoop, hstop]
  rfl

/-- The new area is published and sent once. A subscriber that has missed the emission would
get line 1 again from an older log; after a takeover the daemon looks in log 0 only. -/
theorem takeover_drops_sent_line : ∃ s, (takeoverSystem (areaOf 32768)).Reachable s ∧
    ¬s.TakeoverKeeps (areaOf 32768) ∧
    (firstCall 32768).pivot (s.takeOver.logs (areaOf 32768)).info = 1 ∧
    lineBit ((s.takeOver.logs (areaOf 32768)).diff 0) 1 = false ∧
    ∃ p, 1 ≤ p ∧ p < (firstCall 32768).pivot (s.logs (areaOf 32768)).info ∧
      lineBit ((s.logs (areaOf 32768)).diff p) 1 = true := by
  have hd := areaOf_wf (n := 32768) ⟨1, rfl⟩ (by norm_num)
  have hpos : 0 < (areaOf 32768).offsetLogEnd := by norm_num [areaOf]
  obtain ⟨s, hreach, hsent, hv, hbit, hlast, hsleep⟩ := createdNode_internal
  have hinv := takeInv_reachable hd hpos hreach
  have hlogs := HeaderNode.logs_of_unmapped (d := areaOf 32768) hinv.mapped
  have hone := hinv.quiet hsent 1 le_rfl (by norm_num)
  have hpass : (firstCall 32768).passes (s.logs (areaOf 32768)) = true := by
    rw [hlogs]
    simp only [ExtCall.passes, hv, hlast, hsleep, firstCall]
    decide
  have hpivot : (firstCall 32768).pivot (s.logs (areaOf 32768)).info = 1 := by
    rw [hlogs]
    exact firstCall_pivot _ hv hone
  have hsends : (firstCall 32768).Sends (s.logs (areaOf 32768)) := by
    refine ⟨hpass, 0, ?_, 1, by norm_num [firstCall, areaOf], ?_⟩
    · rw [hpivot]
      norm_num
    · rw [hlogs]
      exact hbit
  have hstep : (takeoverSystem (areaOf 32768)).Reachable
      (s.external (areaOf 32768) (firstCall 32768)) :=
    hreach.step (a := TakeAct.external (firstCall 32768)) rfl
  have hinv' := takeInv_reachable hd hpos hstep
  obtain ⟨hbefore, hafter, hdiff⟩ := hinv'.logs_takeOver
  obtain ⟨hro, hrw, -⟩ := HeaderNode.withLogs_of_unmapped (d := areaOf 32768) hinv.mapped
    (syncExternalArea (firstCall 32768) s.ctx (s.logs (areaOf 32768))).2.1
  have hlog0 := (external_log_zero (firstCall 32768) hd s.ctx (s.logs (areaOf 32768))).1 1
    (by norm_num [firstCall, areaOf])
  rw [hpass, hpivot] at hlog0
  -- line 1 is what version 1 has changed
  have hcov : Covered 4 (fun v => {l | v = 1 ∧ l = 1})
      ((s.logs (areaOf 32768)).abs (areaOf 32768)) := by
    have hin (k : ℕ) (hk : 0 < k) : 1 ∈ ((s.logs (areaOf 32768)).abs (areaOf 32768)).below k := by
      refine ⟨0, hk, by norm_num [areaOf], ?_⟩
      rw [hlogs]
      exact hbit
    constructor
    · rintro k - v hlt l ⟨rfl, rfl⟩
      apply hin
      by_contra h0
      rw [show k = 0 by omega, hlogs] at hlt
      exact absurd (lt_of_eq_of_lt hv.symm hlt) (by norm_num)
    · rintro v l ⟨-, rfl⟩
      exact hin 4 (by norm_num)
  have hcov' := covered_external hd (firstCall 32768) rfl s.ctx _ hcov
  refine ⟨_, hstep, ?_, ?_, ?_, ?_⟩
  · rw [hinv'.keeps_iff, Bool.not_eq_false]
    simp only [HeaderNode.external, hsends, decide_true, Bool.or_true]
  · rw [hafter]
    refine firstCall_pivot _ ?_ (hinv'.rw 1 le_rfl (by norm_num))
    exact (congrArg (fun m => (infoIn (areaOf 32768) m 0).versionEnd) hrw).trans
      (hinv.zero.1.symm.trans hv)
  · rw [hdiff]
    exact hlog0.trans (by simp)
  · have hread : (firstCall 32768).pivot (infoIn (areaOf 32768)
        (s.external (areaOf 32768) (firstCall 32768)).mem.ro) = (firstCall 32768).pivot
        (syncExternalArea (firstCall 32768) s.ctx (s.logs (areaOf 32768))).2.1.info := by
      apply pivot_congr
      intro k hk
      rw [HeaderNode.external, hro, infoIn_storeInfo _ _ _ k hk]
      exact ⟨rfl, rfl⟩
    rw [hbefore, hread]
    obtain ⟨hle, hstop, -⟩ := pivot_spec (firstCall 32768)
      (syncExternalArea (firstCall 32768) s.ctx (s.logs (areaOf 32768))).2.1.info
    obtain ⟨p, hp, -, hset⟩ := hcov'.missing (u := 0) (v := 1) hle (by
      intro hlt
      have hs := hstop hlt
      simp only [ExtCall.stopsAt, Bool.and_eq_true, decide_eq_true_iff] at hs
      exact le_trans hs.2 (versionMin_le List.mem_cons_self)) (by norm_num) ⟨rfl, rfl⟩
    refine ⟨p, ?_, hp, hset⟩
    -- the call has emptied log 0
    by_contra h0
    rw [show p = 0 by omega, hlog0] at hset
    exact absurd hset (by simp)

end Tasvir
