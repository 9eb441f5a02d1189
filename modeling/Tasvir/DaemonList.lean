import Mathlib.Tactic
import Tasvir.Machine
import Tasvir.SyncWidths

/-! The daemon's sync list over a whole run of external syncs and internal sync jobs: who
leaves an item behind, and for which area the items are processed. -/
namespace Tasvir
open RunLength Machine

/-- The list is empty: `cnt` and `changed` are zero. -/
def SyncCtx.Idle (c : SyncCtx) : Prop := c.sl.l = [] ∧ c.sl.changed = 0

/-- The daemon's calls, on areas with any logs, and the rest of the node. -/
inductive ListAct
  /-- `tasvir_sync_external_area` -/
  | external (e : ExtCall) (a : AreaLogs)
  /-- `tasvir_sync_internal_job` for the chunks the daemon takes -/
  | internal (d : AreaDesc) (isLocal : Bool) (s : Share d)
  /-- both copies change, and messages leave the ring -/
  | outside (ro rw : Mem) (tx : TxState)

def listSystem : System SyncCtx ListAct where
  init c := c.Idle
  pre _ act := match act with
    | .external e _ => e.d.Wf
    | _ => True
  next c act := match act with
    | .external e a => (syncExternalArea e c a).1
    | .internal _ isLocal s => (s.job isLocal c).1
    | .outside ro rw tx => { c with ro, rw, tx }

/-- The root area passes the gates of an external sync while no line of it is due. -/
def ListAct.StrandsRoot : ListAct → Prop
  | .external e a => e.d.isRoot = true ∧ e.passes a = true ∧ e.pivot a.info ≠ 0 ∧
      dueLines e.d (e.pivot a.info) a.diff = []
  | _ => False

/-- The items of an external sync: the root descriptor's and the area's own runs. -/
def extItems (e : ExtCall) (a : AreaLogs) : List SyncItem :=
  rootItems e.d ++ (chunkRuns ⟨e.d, e.pivot a.info, some 1⟩ 0 e.d.offsetLogEnd (a.diff 0)
    a.diff).allRuns.map toItem

/-- Only items of the area at hand are processed: they leave in messages with its
descriptor and version, or are copied and counted for its job. -/
def ProcessesOwn (c : SyncCtx) : ListAct → Prop
  | .external e a => ∃ ms its, (syncExternalArea e c a).1.tx.ring = c.tx.ring ++ ms ∧
      (∀ m ∈ ms, m.d = e.d ∧ m.version = c.ro (e.d.h+offVersion)) ∧
      ms.flatMap MemMsg.lineNos = positions (its.map SyncItem.sent) ∧
      (its = [] ∨ its = extItems e a)
  | .internal _ isLocal s => (s.job isLocal c).1.ro = copyItems c.rw (s.runs.map toItem) c.ro ∧
      (s.job isLocal c).2 = (tally 0 (s.runs.map toItem)%2^64).toNat
  | .outside _ _ _ => True

section External
variable (e : ExtCall) (hd : e.d.Wf) (c : SyncCtx) (a : AreaLogs)

/-- What an external sync does to the list and the ring when it gets past its gates. -/
theorem syncExternalArea_passes (hp : e.passes a = true) (h0 : e.pivot a.info ≠ 0) :
    (syncExternalArea e c a).1 = (syncParseLog ⟨e.d, e.pivot a.info, some 1⟩ 0 e.d.offsetLogEnd
      { c with tx := { c.tx with lastSyncExtBytes := 0 } } (a.diff 0) a.diff).1.scan.acc := by
  simp only [syncExternalArea, hp, Bool.not_true, Bool.false_eq_true, ↓reduceIte, h0]
  split_ifs <;> rfl

theorem syncExternalArea_stopped (h : ¬(e.passes a = true ∧ e.pivot a.info ≠ 0)) :
    (syncExternalArea e c a).1.sl = c.sl ∧ (syncExternalArea e c a).1.tx.ring = c.tx.ring := by
  by_cases hp : e.passes a = true
  · have h0 : e.pivot a.info = 0 := by
      by_contra hne
      exact h ⟨hp, hne⟩
    simp [syncExternalArea, hp, h0]
  · simp [syncExternalArea, hp]

include hd in
theorem external_idle_iff (hc : c.Idle) :
    (syncExternalArea e c a).1.Idle ↔ ¬(ListAct.external e a).StrandsRoot := by
  by_cases hg : e.passes a = true ∧ e.pivot a.info ≠ 0
  · obtain ⟨hp, h0⟩ := hg
    have h4 := (pivot_spec e a.info).1
    have hne := dueLines_ne_nil e.d hd (e.pivot a.info) (Nat.pos_of_ne_zero h0) h4
      { c with tx := { c.tx with lastSyncExtBytes := 0 } } a.diff
    rw [syncExternalArea_passes e c a hp h0]
    by_cases hdue : dueLines e.d (e.pivot a.info) a.diff = []
    · -- nothing is flushed, and the root area's list has the descriptor's item
      have hq := syncParseLog_quiet ⟨e.d, e.pivot a.info, some 1⟩
        (Or.inr ⟨Nat.pos_of_ne_zero h0, h4, rfl⟩) e.d.offsetLogEnd hd.end_aligned
        { c with tx := { c.tx with lastSyncExtBytes := 0 } } (a.diff 0) a.diff
        (not_not.mp (mt hne.mp (not_not.mpr hdue)))
      rw [hq, ListAct.StrandsRoot, SyncCtx.Idle]
      cases hr : e.d.isRoot <;>
        simp [parseInit, ParseEnv.external, hr, hc.1, hc.2, hp, h0, hdue, pushItem, rootDescLines]
    · have hempty := (syncParseLog_appends ⟨e.d, e.pivot a.info, some 1⟩
        (Or.inr ⟨Nat.pos_of_ne_zero h0, h4, rfl⟩) (Nat.pos_of_ne_zero h0) e.d.offsetLogEnd
        { c with tx := { c.tx with lastSyncExtBytes := 0 } } (a.diff 0) a.diff).2 (hne.mpr hdue)
      exact ⟨fun _ h => hdue h.2.2.2, fun _ => hempty⟩
  · obtain ⟨hsl, -⟩ := syncExternalArea_stopped e c a hg
    rw [SyncCtx.Idle, hsl]
    exact ⟨fun _ h => hg ⟨h.2.1, h.2.2.1⟩, fun _ => hc⟩

include hd in
theorem external_own (hc : c.Idle) : ProcessesOwn c (.external e a) := by
  by_cases hg : e.passes a = true ∧ e.pivot a.info ≠ 0
  · obtain ⟨hp, h0⟩ := hg
    have h4 := (pivot_spec e a.info).1
    have hne := dueLines_ne_nil e.d hd (e.pivot a.info) (Nat.pos_of_ne_zero h0) h4
      { c with tx := { c.tx with lastSyncExtBytes := 0 } } a.diff
    rw [ProcessesOwn, syncExternalArea_passes e c a hp h0]
    by_cases hdue : dueLines e.d (e.pivot a.info) a.diff = []
    · have htx := emission_nothing e.d hd (e.pivot a.info) (Nat.pos_of_ne_zero h0) h4
        { c with tx := { c.tx with lastSyncExtBytes := 0 } } a.diff hdue
      refine ⟨[], [], ?_, fun _ h => absurd h List.not_mem_nil, rfl, Or.inl rfl⟩
      rw [htx, List.append_nil]
    · have hl : ({ c with tx := { c.tx with lastSyncExtBytes := 0 } } : SyncCtx).sl.l ++
          rootItems e.d = rootItems e.d := by rw [show c.sl.l = [] from hc.1, List.nil_append]
      obtain ⟨ms, hs⟩ := syncParseLog_lines ⟨e.d, e.pivot a.info, some 1⟩
        (Or.inr ⟨Nat.pos_of_ne_zero h0, h4, rfl⟩) (Nat.pos_of_ne_zero h0) e.d.offsetLogEnd
        hd.end_aligned { c with tx := { c.tx with lastSyncExtBytes := 0 } } (a.diff 0) a.diff
        (hne.mpr hdue) (emission_offsets e.d hd (e.pivot a.info) c hc.1 a.diff)
      rw [hl] at hs
      exact ⟨ms, extItems e a, hs.ring, hs.own, hs.lines, Or.inr rfl⟩
  · obtain ⟨-, hring⟩ := syncExternalArea_stopped e c a hg
    exact ⟨[], [], by rw [hring, List.append_nil], fun _ h => absurd h List.not_mem_nil, rfl,
      Or.inl rfl⟩

end External

/-- From an empty list every call processes items of its own area only, and empties the
list again unless it strands the root descriptor. -/
theorem listSystem_step (c : SyncCtx) (hc : c.Idle) (act : ListAct) (hp : listSystem.pre c act) :
    ProcessesOwn c act ∧ ((listSystem.next c act).Idle ↔ ¬act.StrandsRoot) := by
  cases act with
  | external e a => exact ⟨external_own e hp c a hc, external_idle_iff e hp c a hc⟩
  | internal d isLocal s =>
    obtain ⟨hro, -, hl, hch, hv⟩ := s.job_eq isLocal c hc.1 hc.2
    exact ⟨⟨hro, hv⟩, fun _ h => h, fun _ => ⟨hl, hch⟩⟩
  | outside ro rw tx => exact ⟨trivial, fun _ h => h, fun _ => hc⟩

/-- In every run in which no external sync strands the root descriptor, the daemon's list is
empty between two calls, and every call processes items of its own area only. The
condition is needed: a call that strands it leaves its item in the list. -/
theorem daemon_list_own {c : SyncCtx}
    (h : (listSystem.restrict fun _ act => ¬act.StrandsRoot).Reachable c) :
    c.Idle ∧ ∀ act, listSystem.pre c act →
      ProcessesOwn c act ∧ ((listSystem.next c act).Idle ↔ ¬act.StrandsRoot) := by
  have hidle : c.Idle := by
    refine h.invariant (fun _ h0 => h0) ?_
    rintro c act hc ⟨hp, hok⟩
    exact (listSystem_step c hc act hp).2.mpr hok
  exact ⟨hidle, listSystem_step c hidle⟩

section Stranded

def rootArea : AreaDesc := ⟨32768, 32768, true⟩

theorem rootArea_wf : rootArea.Wf := ⟨⟨1, rfl⟩, by decide, ⟨1, rfl⟩, by decide⟩

/-- The root daemon answers a node that boots; nobody has subscribed yet. -/
def bootCall : ExtCall :=
  { d := rootArea, hasOwner := true, isLocal := true, syncExtUs := 0, tdataTimeUs := 30000000
    ndataTimeUs := 30000000, lastSyncExtEnd := 29000000, init := true, users := [] }

/-- The changes have aged into the last diff log when `fresh` is false. -/
def bootLogs (fresh : Bool) : AreaLogs :=
  { diff := fun p u => if (p = 3 ∨ fresh = true) ∧ u = 0 then 1#64 <<< 62 else 0#64
    info := fun _ => ⟨5, 5, 1000000, 1000000⟩
    lastSyncExtUs := 29000000
    sleeping := false }

theorem bootCall_passes (fresh : Bool) : bootCall.passes (bootLogs fresh) = true ∧
    bootCall.pivot (bootLogs fresh).info = 3 := by
  cases fresh <;> decide

/-- With a recent change the boot request is answered and the list is empty again. -/
theorem daemon_list_own_boot :
    let c : SyncCtx := { ro := fun _ => 0, rw := fun _ => 0 }
    (listSystem.next c (.external bootCall (bootLogs true))).Idle := by
  intro c
  have h0 : (listSystem.restrict fun _ act => ¬act.StrandsRoot).Reachable c := .init ⟨rfl, rfl⟩
  apply ((daemon_list_own h0).2 (.external bootCall (bootLogs true)) rootArea_wf).2.mpr
  rintro ⟨-, -, -, hdue⟩
  rw [(bootCall_passes true).2] at hdue
  exact absurd hdue (by decide +kernel)

/-- When all changes of the root area are older than the logs below the pivot, the
descriptor's item stays in the list after the call. -/
theorem root_item_stranded :
    ¬(∀ c, listSystem.Reachable c → c.Idle) ∧
    ∀ c : SyncCtx, c.Idle →
      (listSystem.next c (.external bootCall (bootLogs false))).sl.l = [⟨0, 2⟩] := by
  have hl (c : SyncCtx) (hc : c.Idle) :
      (listSystem.next c (.external bootCall (bootLogs false))).sl.l = [⟨0, 2⟩] := by
    obtain ⟨hp, hpiv⟩ := bootCall_passes false
    have hdue : dueLines rootArea 3 (bootLogs false).diff = [] := by decide +kernel
    have hne := dueLines_ne_nil rootArea rootArea_wf 3 (by norm_num) (by norm_num)
      { c with tx := { c.tx with lastSyncExtBytes := 0 } } (bootLogs false).diff
    have hq := syncParseLog_quiet ⟨rootArea, 3, some 1⟩ (Or.inr ⟨by norm_num, by norm_num, rfl⟩)
      rootArea.offsetLogEnd rootArea_wf.end_aligned
      { c with tx := { c.tx with lastSyncExtBytes := 0 } } ((bootLogs false).diff 0)
      (bootLogs false).diff (not_not.mp (mt hne.mp (not_not.mpr hdue)))
    have hnext := syncExternalArea_passes bootCall c (bootLogs false) hp (by rw [hpiv]; norm_num)
    rw [hpiv] at hnext
    change (syncExternalArea bootCall c (bootLogs false)).1.sl.l = _
    rw [hnext, show bootCall.d = rootArea from rfl, hq]
    simp [parseInit, ParseEnv.external, rootArea, pushItem, rootDescLines, hc.1]
  refine ⟨?_, hl⟩
  intro h
  have h0 : listSystem.Reachable { ro := fun _ => 0, rw := fun _ => 0 } := .init ⟨rfl, rfl⟩
  have hpre : listSystem.pre { ro := fun _ => 0, rw := fun _ => 0 }
      (.external bootCall (bootLogs false)) := rootArea_wf
  have hidle := h _ (h0.step hpre)
  have hitem := hl { ro := fun _ => 0, rw := fun _ => 0 } ⟨rfl, rfl⟩
  rw [hidle.1] at hitem
  exact absurd hitem (by simp)

end Stranded

end Tasvir
