import Mathlib.Tactic
import Tasvir.Jobs
import Tasvir.RemoteArea

/-! Memory messages of many remote areas at one daemon: the bursts in which they are taken
from the port, those that are deferred to `ring_mem_pending`, the internal syncs in between,
and the drain after a sync. A call of `tasvir_service` may be made inside of another one, by
the handler of an RPC or by `tasvir_kill_thread` at the end of a sync. -/
namespace Tasvir
open GuardedWalk Machine RunLength

/-- TASVIR_PKT_BURST. -/
def pktBurst : ℕ := 32

/-- What does not change while messages arrive: the tree of areas, which of them are local,
and the capacity of `ring_mem_pending`. -/
structure RxEnv where
  tree : Rose ℕ
  desc : ℕ → AreaDesc
  isLocal : ℕ → Bool
  /-- `d->sync_int_us` -/
  syncIntUs : ℕ → ℕ
  cap : ℕ

/-- All areas of the tree. -/
def RxEnv.areas (e : RxEnv) : List ℕ := e.tree.visited fun _ => true

/-- The RW header of an area as far as memory messages go. -/
structure RxHeader where
  hasHeader : Bool
  active : Bool
  sleeping : Bool
  /-- TASVIR_AREA_FLAG_EXT_PENDING, EXT_IGNORE and EXT_ENQUEUE -/
  pending : Bool
  ignore : Bool
  enqueue : Bool
  lastSyncExtV : ℕ
  lastSyncExtBytes : ℕ

/-- A memory message and the area it is for. -/
abbrev AreaMsg := ℕ × MemMsg

/-- The messages for area `i`, in order. -/
def msgsOf (i : ℕ) (q : List AreaMsg) : List MemMsg := (q.filter fun x => x.1 = i).map Prod.snd

/-- Where a call of `tasvir_service` is that has made a sync and not drained the ring. -/
inductive EndPc
  /-- `tasvir_sync_internal` looks whether the threads are done, or has returned -/
  | ended
  /-- it waits in `tasvir_kill_thread` for the areas of a thread that is not -/
  | killing
deriving DecidableEq, Repr

/-- The daemon's node. `jobs` is the job list while an internal sync is under way. `hand` has
the messages of bursts that are not handled yet, and `ending` the calls of `tasvir_service`
that have not drained the ring, those of the innermost call first. `arrived` and `handled`
record the messages taken from the port, and those that have got past the test of
EXT_ENQUEUE. -/
structure RxNode where
  mem : NodeMem
  hdr : ℕ → RxHeader
  owner : ℕ → AreaOwner
  ring : List AreaMsg := []
  hand : List AreaMsg := []
  ending : List EndPc := []
  booting : Bool
  timeUs : ℕ
  lastSyncIntEnd : ℕ
  syncIntUs : ℕ
  jobs : Option (List ℕ) := none
  job : ℕ → CoopState
  jobBytes : ℕ := 0
  arrived : List AreaMsg := []
  handled : List AreaMsg := []

namespace RxNode
variable (e : RxEnv) (s : RxNode)

/-- What `tasvir_handle_msg_mem` works on for area `i`; its ring has what the call enqueues. -/
def receiver (i : ℕ) : Receiver where
  mem := s.mem
  hasHeader := (s.hdr i).hasHeader
  active := (s.hdr i).active
  sleeping := (s.hdr i).sleeping
  pending := (s.hdr i).pending
  ignore := (s.hdr i).ignore
  enqueue := (s.hdr i).enqueue
  lastSyncExtV := (s.hdr i).lastSyncExtV
  lastSyncExtBytes := (s.hdr i).lastSyncExtBytes
  ring := []
  booting := s.booting

/-- `time_us - last_sync_int_end > 0.5 * sync_int_us`, the difference being a `uint64_t`. -/
def late : Bool := (s.syncIntUs : ℤ) < 2*(((s.timeUs : ℤ)-s.lastSyncIntEnd)%2^64)

/-- `tasvir_handle_msg_mem`. -/
def handleMsgMem (x : AreaMsg) : RxNode :=
  let r := (s.receiver x.1).handleMsgMem s.late (e.cap ≤ s.ring.length) x.2
  { s with
    mem := r.mem
    hdr := Function.update s.hdr x.1 ⟨r.hasHeader, r.active, r.sleeping, r.pending, r.ignore,
      r.enqueue, r.lastSyncExtV, r.lastSyncExtBytes⟩
    ring := s.ring ++ r.ring.map fun m => (x.1, m)
    handled := if (s.hdr x.1).enqueue then s.handled else s.handled ++ [x] }

/-- `tasvir_service_ring` on `ring_mem_pending`; the fuel bounds the passes of its loop. -/
def serviceRing (e : RxEnv) : ℕ → RxNode → Option RxNode
  | 0, _ => none
  | fuel+1, s =>
    match s.ring.take pktBurst with
    | [] => some s
    | ms => serviceRing e fuel
        (ms.foldl (handleMsgMem e) { s with ring := s.ring.drop pktBurst })

/-- The area as the scheduler sees it. -/
def jobArea (i : ℕ) : JobArea where
  d := e.desc i
  owner := s.owner i
  hasHeader := (s.hdr i).hasHeader
  flags := {
    active := (s.hdr i).active, extPending := (s.hdr i).pending, sleeping := (s.hdr i).sleeping }
  isLocal := e.isLocal i

/-- The areas that `tasvir_area_walk` reaches. -/
def reached : List ℕ := e.tree.visited fun i => (s.jobArea e i).isActiveLocal

/-- The job list that the walk makes; `none` is an abort over a full list. -/
def walk : Option (List ℕ) :=
  (e.tree.walk (fun i => (s.jobArea e i).isActiveLocal) (schedArea (s.jobArea e)) (some [])).1

/-- The area is active and reachable from the root through active containers. -/
def Live (i : ℕ) : Prop := i ∈ s.reached e ∧ (s.hdr i).sleeping = false

/-- The updates of `sync_int_us` by the walk. -/
def minSyncIntUs : ℕ := (s.reached e).foldl (fun t i => min t (e.syncIntUs i)) s.syncIntUs

/-- What a thread reads of the job of area `i`. -/
def coopEnv (i : ℕ) : CoopEnv := ⟨e.desc i, e.isLocal i, (s.owner i).slot, s.jobBytes, s.timeUs⟩

/-- The job of area `i` with the memory and the flag as they are now. -/
def coop (i : ℕ) : CoopState :=
  { s.job i with
    node := { (s.job i).node with mem := s.mem }, extEnqueue := (s.hdr i).enqueue }

/-- Thread `t` makes its next step in `tasvir_sync_internal_job` on area `i`. -/
def stepJob (i t : ℕ) : RxNode :=
  let c := (s.coop i).step (s.coopEnv e i) t
  { s with
    mem := c.node.mem
    job := Function.update s.job i c
    hdr := Function.update s.hdr i { s.hdr i with enqueue := c.extEnqueue } }

/-- The end of a successful `tasvir_sync_internal` at time `t`. -/
def synced (t : ℕ) : RxNode := { s with jobs := none, timeUs := t, lastSyncIntEnd := t }

/-- The lines of the message lie in the area. -/
def Inside (d : AreaDesc) (m : MemMsg) : Prop := m.Wf ∧ ∀ l, Covers [m.run] l → d.Has l

end RxNode

inductive RxAct
  /-- `tasvir_service` updates the time, or `tasvir_stats_reset` that of the last sync -/
  | tick (t : ℕ)
  | reset
  | boot
  /-- messages are taken from the port, and one of them is handled -/
  | burst (ms : List AreaMsg)
  | recv (i : ℕ) (m : MemMsg)
  /-- `tasvir_sched_sync_internal`, then the barrier succeeds -/
  | sched (nrThreads : ℕ)
  | job (i t : ℕ)
  /-- the daemon is told that all jobs are done -/
  | done (t : ℕ)
  /-- `tasvir_kill_thread` begins to wait, and is done -/
  | kill
  | killed
  /-- the ring is drained, in fewer than `fuel` passes -/
  | drain (fuel : ℕ)
  /-- `tasvir_sched_sync_internal`, then the barrier fails -/
  | fail (t : ℕ)
  /-- what threads do to local areas, and changes of owners -/
  | other (mem : NodeMem) (hdr : ℕ → RxHeader) (owner : ℕ → AreaOwner)

namespace RxNode
variable (e : RxEnv) (s : RxNode)

/-- The daemon is in the loop of `tasvir_service`, called by anyone. -/
def Serving : Prop := s.jobs = none ∧ s.ending.head? ≠ some .ended

/-- The memory and the headers of remote areas are left alone, and those that were live
stay so. -/
structure Spares (mem : NodeMem) (hdr : ℕ → RxHeader) (owner : ℕ → AreaOwner) : Prop where
  rw : ∀ i ∈ e.areas, e.isLocal i = false → ∀ x, (e.desc i).Has (x/64) → mem.rw x = s.mem.rw x
  same : ∀ i, e.isLocal i = false → hdr i = s.hdr i
  enqueue : ∀ i, (hdr i).enqueue = (s.hdr i).enqueue
  live : ∀ i, e.isLocal i = false → s.Live e i → Live e { s with mem, hdr, owner } i

/-- Every message is for a remote area that is live and has room in the ring if it is to be
deferred. During a sync the daemon does nothing else. -/
def pre : RxAct → Prop
  | .tick _ | .reset | .boot => s.Serving
  | .burst ms => s.Serving ∧ ms.length ≤ pktBurst
  | .recv i m => s.Serving ∧ s.hand.head? = some (i, m) ∧ e.isLocal i = false ∧ s.Live e i ∧
      Inside (e.desc i) m ∧ ((s.hdr i).enqueue = true → s.ring.length < e.cap)
  | .sched _ | .fail _ => s.Serving ∧ s.booting = false ∧ (s.walk e).isSome = true
  | .job i _ => ∃ js, s.jobs = some js ∧ i ∈ js
  | .done _ => ∃ js, s.jobs = some js ∧ ∀ i ∈ js, 0 ∈ (s.job i).returned
  | .kill => s.jobs = none ∧ s.ending.head? = some .ended
  | .killed => s.jobs = none ∧ s.ending.head? = some .killing
  | .drain fuel => s.jobs = none ∧ s.ending.head? = some .ended ∧
      (serviceRing e fuel s).isSome = true
  | .other mem hdr owner => s.Spares e mem hdr owner

def next : RxAct → RxNode
  | .tick t => { s with timeUs := t }
  | .reset => { s with lastSyncIntEnd := s.timeUs }
  | .boot => { s with booting := false }
  -- the messages of the innermost burst are handled first
  | .burst ms => { s with hand := ms ++ s.hand, arrived := s.arrived ++ ms }
  | .recv i m => { s.handleMsgMem e (i, m) with hand := s.hand.tail }
  | .sched nrThreads =>
    let js := (s.walk e).getD []
    { s with
      syncIntUs := s.minSyncIntUs e
      jobs := some js
      job := fun i => if i ∈ js then { node := (s.job i).node, extEnqueue := false } else s.job i
      jobBytes := Tasvir.jobBytes (js.map e.desc) nrThreads }
  | .job i t => s.stepJob e i t
  | .done t => { s.synced t with ending := .ended :: s.ending }
  | .kill => { s with ending := .killing :: s.ending.tail }
  | .killed => { s with ending := .ended :: s.ending.tail }
  | .drain fuel => { (serviceRing e fuel s).getD s with ending := s.ending.tail }
  | .fail t => { s with syncIntUs := s.minSyncIntUs e, lastSyncIntEnd := t }
  | .other mem hdr owner => { s with mem, hdr, owner }

/-- The condition on a step: `tasvir_service` does not run inside of another call of it
while that one has messages of a burst in hand, or has made a sync and not drained. -/
def unnested : RxAct → Prop
  | .tick _ | .reset | .boot | .burst _ | .sched _ | .fail _ => s.ending = [] ∧ s.hand = []
  | .recv _ _ => s.ending = []
  | _ => True

end RxNode

/-- The runs of a daemon from `s₀` on. -/
def rxSystem (e : RxEnv) (s₀ : RxNode) : System RxNode RxAct where
  init s := s = s₀
  pre s := s.pre e
  next s := s.next e

/-- A handler that never defers. -/
def Receiver.direct (r : Receiver) (m : MemMsg) : Receiver :=
  { r with enqueue := false }.handleMsgMem false false m

/-- The two receivers have taken in the same messages of the area. -/
structure Agrees (d : AreaDesc) (r r' : Receiver) : Prop where
  hasHeader : r.hasHeader = r'.hasHeader
  active : r.active = r'.active
  pending : r.pending = r'.pending
  ignore : r.ignore = r'.ignore
  lastSyncExtV : r.lastSyncExtV = r'.lastSyncExtV
  lastSyncExtBytes : r.lastSyncExtBytes = r'.lastSyncExtBytes
  rw : ∀ x, d.Has (x/64) → r.mem.rw x = r'.mem.rw x

section Handler
variable {d : AreaDesc} {r r' : Receiver}

theorem storeLines_apply (dst : Mem) (m : MemMsg) (a x : ℕ) :
    storeLines dst m a x =
      if a ≤ x ∧ x < a+64*((m.len-1)/64+1) then m.line (x-a) else dst x :=
  storeVecLoop_apply ..

theorem Agrees.enter (h : Agrees d r r') (m : MemMsg) : Agrees d (r.enter m) (r'.enter m) := by
  unfold Receiver.enter
  rw [h.lastSyncExtV]
  split_ifs
  · exact ⟨h.hasHeader, h.active, rfl, rfl, rfl, rfl, h.rw⟩
  · exact h

theorem Agrees.checkBytes (h : Agrees d r r') (m : MemMsg) :
    Agrees d (r.checkBytes m) (r'.checkBytes m) := by
  unfold Receiver.checkBytes
  simp only [h.lastSyncExtBytes]
  split_ifs
  · exact ⟨h.hasHeader, h.active, rfl, rfl, h.lastSyncExtV, rfl, h.rw⟩
  · exact h

theorem Agrees.store (h : Agrees d r r') (m : MemMsg) : Agrees d (r.store m) (r'.store m) := by
  unfold Receiver.store
  cases m.addr with
  | none => exact h
  | some a =>
    refine ⟨h.hasHeader, h.active, h.pending, h.ignore, h.lastSyncExtV,
      congrArg (·+m.len) h.lastSyncExtBytes, ?_⟩
    intro x hx
    simp only [(r.mem.receive_frame r.booting m a).1, (r'.mem.receive_frame r'.booting m a).1,
      storeLines_apply]
    rw [h.rw x hx]

theorem Agrees.finish (h : Agrees d r r') (late late' : Bool) (m : MemMsg) :
    Agrees d (r.finish late m) (r'.finish late' m) := by
  unfold Receiver.finish
  split_ifs
  · exact ⟨h.hasHeader, rfl, rfl, h.ignore, h.lastSyncExtV, h.lastSyncExtBytes, h.rw⟩
  · exact h

/-- A message that is not deferred, whatever the state of the ring. -/
theorem handle_taken (late full : Bool) (m : MemMsg) (he : r.enqueue = false) :
    r.handleMsgMem late full m =
      if !r.hasHeader then r
      else if (r.enter m).ignore || !(r.enter m).pending then r.enter m
      else (((r.enter m).checkBytes m).store m).finish late m := by
  rw [Receiver.handleMsgMem, he]
  rfl

/-- Deferral, times and the state of the ring do not matter to a message that is taken in. -/
theorem Agrees.handle (h : Agrees d r r') (he : r.enqueue = false) (late full : Bool) (m : MemMsg) :
    Agrees d (r.handleMsgMem late full m) (r'.direct m) := by
  have h' : Agrees d r { r' with enqueue := false } :=
    ⟨h.hasHeader, h.active, h.pending, h.ignore, h.lastSyncExtV, h.lastSyncExtBytes, h.rw⟩
  have hin := h'.enter m
  rw [Receiver.direct, handle_taken late full m he, handle_taken false false m rfl, h'.hasHeader,
    hin.ignore, hin.pending]
  split_ifs
  · exact h'
  · exact hin
  · exact ((hin.checkBytes m).store m).finish late false m

/-- The flags and fields that only the end of a version changes. -/
structure Receiver.Keeps (r r' : Receiver) : Prop where
  hasHeader : r'.hasHeader = r.hasHeader
  active : r'.active = r.active
  sleeping : r'.sleeping = r.sleeping
  enqueue : r'.enqueue = r.enqueue
  ring : r'.ring = r.ring

theorem keeps_enter (r : Receiver) (m : MemMsg) : r.Keeps (r.enter m) := by
  unfold Receiver.enter
  split_ifs <;> exact ⟨rfl, rfl, rfl, rfl, rfl⟩

theorem keeps_checkBytes (r : Receiver) (m : MemMsg) : r.Keeps (r.checkBytes m) := by
  unfold Receiver.checkBytes
  split_ifs <;> exact ⟨rfl, rfl, rfl, rfl, rfl⟩

theorem keeps_store (r : Receiver) (m : MemMsg) : r.Keeps (r.store m) := by
  unfold Receiver.store
  cases m.addr <;> exact ⟨rfl, rfl, rfl, rfl, rfl⟩

theorem Receiver.Keeps.trans {r'' : Receiver} (h : r.Keeps r') (h' : r'.Keeps r'') : r.Keeps r'' :=
  ⟨h'.hasHeader.trans h.hasHeader, h'.active.trans h.active, h'.sleeping.trans h.sleeping,
    h'.enqueue.trans h.enqueue, h'.ring.trans h.ring⟩

/-- What a call that does not defer leaves alone; it sets EXT_ENQUEUE only late in the
interval, and then EXT_PENDING is not set. -/
structure Receiver.Taken (late : Bool) (r r' : Receiver) : Prop where
  hasHeader : r'.hasHeader = r.hasHeader
  active : r.active = true → r'.active = true
  sleeping : r'.sleeping = r.sleeping
  ring : r'.ring = r.ring
  enqueue : r'.enqueue = true → late = true ∧ r'.pending = false

theorem Receiver.Keeps.taken (h : r.Keeps r') (he : r.enqueue = false) (late : Bool) :
    r.Taken late r' := by
  refine ⟨h.hasHeader, fun ha => h.active.trans ha, h.sleeping, h.ring, fun hq => ?_⟩
  rw [h.enqueue, he] at hq
  exact Bool.noConfusion hq

theorem handle_frame (late full : Bool) (m : MemMsg) (he : r.enqueue = false) :
    r.Taken late (r.handleMsgMem late full m) := by
  have hstored := ((keeps_enter r m).trans (keeps_checkBytes _ m)).trans (keeps_store _ m)
  rw [handle_taken late full m he]
  split_ifs
  · exact Receiver.Keeps.taken ⟨rfl, rfl, rfl, rfl, rfl⟩ he late
  · exact (keeps_enter r m).taken he late
  · unfold Receiver.finish
    split_ifs
    · refine ⟨hstored.hasHeader, fun _ => rfl, hstored.sleeping, hstored.ring, fun hq => ?_⟩
      simp only [hstored.enqueue, he, Bool.false_or, Bool.and_eq_true] at hq
      exact ⟨hq.2, rfl⟩
    · exact hstored.taken he late

/-- A message writes nowhere but on its own lines. -/
theorem handle_rw (late full : Bool) {m : MemMsg} (hm : m.Wf) (he : r.enqueue = false) (x : ℕ)
    (hx : ¬Covers [m.run] (x/64)) : (r.handleMsgMem late full m).mem.rw x = r.mem.rw x := by
  have henter : (r.enter m).mem = r.mem := by
    unfold Receiver.enter
    split_ifs <;> rfl
  have hcheck : ((r.enter m).checkBytes m).mem = r.mem := by
    unfold Receiver.checkBytes
    split_ifs <;> exact henter
  obtain ⟨a, n, ha, -⟩ := id hm
  rw [handle_taken late full m he]
  split_ifs
  · rfl
  · rw [henter]
  · have hfinish (r : Receiver) : (r.finish late m).mem = r.mem := by
      unfold Receiver.finish
      split_ifs <;> rfl
    rw [hfinish, Receiver.store, ha]
    dsimp only
    rw [hcheck]
    exact ((receive_spec hm ha r.mem _).2 x hx).1

end Handler

section Job
variable {c : CoopEnv} {j : CoopState}

/-- Whoever is told that the job is done finds EXT_ENQUEUE cleared. -/
structure CoopState.Told (j : CoopState) : Prop where
  close : ∀ t, j.pc t = .close → j.extEnqueue = false
  stage2 : j.job.doneStage2 = true → j.extEnqueue = false
  returned : j.returned ≠ [] → j.extEnqueue = false

theorem CoopState.complete_extEnqueue (t updated : ℕ) :
    (j.complete c t updated).extEnqueue = false := by
  simp only [CoopState.complete]
  split_ifs <;> rfl

/-- A step never sets the flag. -/
theorem step_extEnqueue (t : ℕ) (h : (j.step c t).extEnqueue = true) : j.extEnqueue = true := by
  unfold CoopState.step at h
  split at h
  case h_11 =>
    rw [CoopState.goto, CoopState.complete_extEnqueue] at h
    exact Bool.noConfusion h
  case h_1 =>
    split_ifs at h <;> exact h
  all_goals exact h

theorem CoopState.Told.moved (h : j.Told) {j' : CoopState} {t : ℕ} {p : JobPc}
    (hpc : j'.pc = Function.update j.pc t p) (hp : p ≠ .close) (hext : j'.extEnqueue = j.extEnqueue)
    (h2 : j'.job.doneStage2 = j.job.doneStage2) (hret : j'.returned ≠ [] → j.extEnqueue = false) :
    j'.Told := by
  rw [← hext] at hret
  refine ⟨fun t' ht' => ?_, fun h' => ?_, hret⟩
  · rw [hpc, Function.update_apply] at ht'
    split_ifs at ht'
    · exact absurd ht' hp
    · exact hext.trans (h.close t' ht')
  · exact hext.trans (h.stage2 (h2.symm.trans h'))

theorem CoopState.Told.step (h : j.Told) (t : ℕ) : (j.step c t).Told := by
  unfold CoopState.step
  cases hpc : j.pc t with
  | out =>
    dsimp only
    split_ifs with h2
    · exact ⟨h.close, h.stage2, fun _ => h.stage2 h2⟩
    · exact h
    · exact h.moved rfl (by simp) rfl rfl h.returned
  | start =>
    refine h.moved rfl ?_ rfl rfl h.returned
    split_ifs <;> simp
  | loop seen =>
    refine h.moved rfl ?_ rfl rfl h.returned
    split_ifs <;> simp
  | claim seen =>
    refine h.moved rfl ?_ rfl rfl h.returned
    split_ifs <;> simp
  | parse seen offset len => exact h.moved rfl (by simp) rfl rfl h.returned
  | left seen =>
    refine h.moved rfl ?_ rfl rfl h.returned
    split_ifs <;> simp
  | raise seen => exact h.moved rfl (by simp) rfl rfl h.returned
  | copy seen => exact h.moved rfl (by simp) rfl rfl h.returned
  | add seen updated => exact h.moved rfl (by simp) rfl rfl h.returned
  | count seen updated =>
    refine h.moved rfl ?_ rfl rfl h.returned
    split_ifs <;> simp
  | finish updated =>
    -- the completion block clears the flag
    have hflag := CoopState.complete_extEnqueue (c := c) (j := j) t updated
    exact ⟨fun _ _ => hflag, fun _ => hflag, fun _ => hflag⟩
  | close =>
    have hflag := h.close t hpc
    exact ⟨fun _ _ => hflag, fun _ => hflag, fun _ => hflag⟩
  | last =>
    refine h.moved rfl (by simp) rfl rfl fun hr => ?_
    simp only [CoopState.goto] at hr
    split_ifs at hr with h2
    · exact h.stage2 h2
    · exact h.returned hr

/-- A step changes at most two cells of the RW copy, in the header of a local area. -/
theorem step_rw (t x : ℕ) (hx : c.isLocal = true → x ≠ c.d.h+offVersion ∧ x ≠ c.d.h+offTime) :
    (j.step c t).node.mem.rw x = j.node.mem.rw x := by
  unfold CoopState.step
  cases hpc : j.pc t with
  | out =>
    dsimp only
    split_ifs <;> rfl
  | parse seen offset len => exact congrFun (rw_parse c.d c.isLocal j.node.mem t offset len) x
  | copy seen => exact congrFun (rw_process c.d j.node.mem t) x
  | finish updated =>
    have hnode := (CoopState.complete_frame (e := c) (s := j) (t := t) updated).1
    simp only [CoopState.goto, hnode, CoopEnv.closed]
    split_ifs with h1 h2
    · obtain ⟨hv, ht⟩ := hx h2
      simp only [OwnerNode.publish, Function.update_of_ne hv, Function.update_of_ne ht]
    · rfl
    · rfl
  | _ => rfl

end Job

section Drain
variable {e : RxEnv} {s : RxNode}

/-- No area defers its messages, and it is too early in the interval to begin. -/
structure RxNode.Quiet (s : RxNode) : Prop where
  flags : ∀ i, (s.hdr i).enqueue = false
  early : s.late = false

/-- A message that is not deferred is not put into the ring. -/
theorem handle_queue_frame (x : AreaMsg) (hq : (s.hdr x.1).enqueue = false) :
    (s.handleMsgMem e x).ring = s.ring ∧ (s.handleMsgMem e x).handled = s.handled ++ [x] := by
  have ht := handle_frame s.late (e.cap ≤ s.ring.length) x.2 (r := s.receiver x.1) hq
  have hring : (s.receiver x.1).ring = [] := rfl
  constructor
  · simp only [RxNode.handleMsgMem, ht.ring, hring, List.map_nil, List.append_nil]
  · simp only [RxNode.handleMsgMem, hq, Bool.false_eq_true, ↓reduceIte]

theorem RxNode.Quiet.handle (h : s.Quiet) (x : AreaMsg) :
    (s.handleMsgMem e x).Quiet ∧ (s.handleMsgMem e x).ring = s.ring ∧
    (s.handleMsgMem e x).handled = s.handled ++ [x] := by
  have ht := handle_frame s.late (e.cap ≤ s.ring.length) x.2 (r := s.receiver x.1) (h.flags x.1)
  refine ⟨⟨?_, h.early⟩, handle_queue_frame x (h.flags x.1)⟩
  intro i
  simp only [RxNode.handleMsgMem, Function.update_apply]
  split_ifs
  -- EXT_ENQUEUE is only set late in the interval
  · by_contra hq
    have hlate := (ht.enqueue (by simpa using hq)).1
    rw [h.early] at hlate
    exact Bool.noConfusion hlate
  · exact h.flags i

/-- What is in the ring does not matter. -/
theorem RxNode.Quiet.handle_setRing (h : s.Quiet) (q : List AreaMsg) (x : AreaMsg) :
    { s with ring := q }.handleMsgMem e x = { s.handleMsgMem e x with ring := q } := by
  have hfull (full full' : Bool) : (s.receiver x.1).handleMsgMem s.late full x.2 =
      (s.receiver x.1).handleMsgMem s.late full' x.2 := by
    rw [handle_taken s.late full x.2 (h.flags x.1), handle_taken s.late full' x.2 (h.flags x.1)]
  have ht := handle_frame s.late (e.cap ≤ s.ring.length) x.2 (r := s.receiver x.1) (h.flags x.1)
  have hr := hfull (e.cap ≤ q.length) (e.cap ≤ s.ring.length)
  have hring : (s.receiver x.1).ring = [] := rfl
  unfold RxNode.handleMsgMem
  simp only [show ({ s with ring := q } : RxNode).receiver x.1 = s.receiver x.1 from rfl,
    show ({ s with ring := q } : RxNode).late = s.late from rfl, hr, ht.ring, hring,
    List.map_nil, List.append_nil]

theorem RxNode.Quiet.foldl (h : s.Quiet) (ms : List AreaMsg) :
    (ms.foldl (RxNode.handleMsgMem e) s).Quiet ∧
    (ms.foldl (RxNode.handleMsgMem e) s).ring = s.ring ∧
    (ms.foldl (RxNode.handleMsgMem e) s).handled = s.handled ++ ms := by
  induction ms generalizing s with
  | nil => exact ⟨h, rfl, (List.append_nil _).symm⟩
  | cons x ms ih =>
    obtain ⟨h1, h2, h3⟩ := h.handle (e := e) x
    obtain ⟨g1, g2, g3⟩ := ih h1
    refine ⟨g1, g2.trans h2, ?_⟩
    rw [List.foldl_cons, g3, h3, List.append_assoc]
    rfl

theorem RxNode.Quiet.foldl_setRing (h : s.Quiet) (q : List AreaMsg) (ms : List AreaMsg) :
    ms.foldl (RxNode.handleMsgMem e) { s with ring := q } =
      { ms.foldl (RxNode.handleMsgMem e) s with ring := q } := by
  induction ms generalizing s with
  | nil => rfl
  | cons x ms ih =>
    rw [List.foldl_cons, h.handle_setRing, ih (h.handle x).1]
    rfl

/-- The loop ends, after it has handled the messages of the ring once and in order. -/
theorem RxNode.Quiet.serviceRing (h : s.Quiet) {fuel : ℕ} (hf : s.ring.length < fuel) :
    RxNode.serviceRing e fuel s =
      some (s.ring.foldl (RxNode.handleMsgMem e) { s with ring := [] }) := by
  induction fuel generalizing s with
  | zero => exact absurd hf (Nat.not_lt_zero _)
  | succ fuel ih =>
    rw [RxNode.serviceRing]
    cases hms : s.ring.take pktBurst with
    | nil =>
      have hnil : s.ring = [] := by
        rcases List.take_eq_nil_iff.mp hms with hb | hb
        · exact absurd hb (by decide)
        · exact hb
      simp only [hnil, List.foldl_nil]
      rw [← hnil]
    | cons x xs =>
      dsimp only
      rw [← hms]
      have hdrop : Quiet { s with ring := s.ring.drop pktBurst } := ⟨h.flags, h.early⟩
      -- nothing of the burst comes back to the ring
      obtain ⟨hquiet, hring, -⟩ := hdrop.foldl (e := e) (s.ring.take pktBurst)
      have hlen : 0 < s.ring.length := by
        by_contra hz
        rw [List.length_eq_zero_iff.mp (Nat.eq_zero_of_not_pos hz)] at hms
        simp at hms
      rw [ih hquiet (by rw [hring, List.length_drop, pktBurst]; omega), hring,
        h.foldl_setRing, ← h.foldl_setRing [] (s.ring.take pktBurst), ← List.foldl_append,
        List.take_append_drop]

end Drain

section Order
variable {i : ℕ} {q q' : List AreaMsg}

theorem msgsOf_append : msgsOf i (q ++ q') = msgsOf i q ++ msgsOf i q' := by
  rw [msgsOf, List.filter_append, List.map_append]
  rfl

theorem msgsOf_single (x : AreaMsg) : msgsOf i [x] = if x.1 = i then [x.2] else [] := by
  by_cases h : x.1 = i <;> simp [msgsOf, h]

theorem msgsOf_eq_nil (h : ∀ x ∈ q, x.1 ≠ i) : msgsOf i q = [] := by
  rw [msgsOf, List.map_eq_nil_iff, List.filter_eq_nil_iff]
  intro x hx
  simpa using h x hx

end Order

/-- Areas as they are laid out: each in its own part of the data region. -/
structure RxEnv.Wf (e : RxEnv) : Prop where
  desc : ∀ i ∈ e.areas, (e.desc i).Wf ∧ 0 < (e.desc i).offsetLogEnd
  apart : ∀ i ∈ e.areas, ∀ j ∈ e.areas, i ≠ j → ∀ l, (e.desc i).Has l → ¬(e.desc j).Has l

/-- Every remote area is where the messages handled so far bring it when none is ever deferred. -/
def RxNode.Effect (e : RxEnv) (s s₀ : RxNode) : Prop :=
  ∀ i ∈ e.areas, e.isLocal i = false →
    Agrees (e.desc i) (s.receiver i) ((msgsOf i s.handled).foldl Receiver.direct (s₀.receiver i))

section Step
variable {e : RxEnv} {s₀ s s' : RxNode} {i : ℕ}

theorem RxNode.Live.mono (h : s.Live e i) (ho : s'.owner = s.owner)
    (hh : ∀ j, (s.hdr j).hasHeader = true → (s'.hdr j).hasHeader = true)
    (ha : ∀ j, (s.hdr j).active = true → (s'.hdr j).active = true)
    (hs : (s'.hdr i).sleeping = (s.hdr i).sleeping) : s'.Live e i := by
  refine ⟨(Rose.visited_mono ?_ e.tree i h.1).1, hs.trans h.2⟩
  intro j hj
  simp only [JobArea.isActiveLocal, RxNode.jobArea, Bool.and_eq_true, ho] at hj ⊢
  exact ⟨⟨hj.1.1, hh j hj.1.2⟩, ha j hj.2⟩

theorem RxNode.Live.mem (h : s.Live e i) : i ∈ e.areas :=
  (Rose.visited_mono (fun _ _ => rfl) e.tree i h.1).1

theorem RxNode.Live.hasHeader (h : s.Live e i) : (s.hdr i).hasHeader = true := by
  have hguard := (Rose.visited_mono (fun _ hj => hj) e.tree i h.1).2
  simp only [JobArea.isActiveLocal, RxNode.jobArea, Bool.and_eq_true] at hguard
  exact hguard.1.2

/-- The list has the areas that the walk reaches and does not skip. -/
theorem walk_eq (hw : (s.walk e).isSome = true) :
    (s.walk e).getD [] = (s.reached e).filter fun i => !(s.jobArea e i).flags.skipped := by
  obtain ⟨js, hjs⟩ := Option.isSome_iff_exists.mp hw
  have hstate : s.walk e = (s.reached e).foldl
      (fun js i => (schedArea (s.jobArea e) js i).1) (some []) := Rose.walk_state _ _ _ _
  rw [hjs] at hstate
  rw [hjs, Option.getD_some]
  exact foldl_schedArea _ _ [] js hstate.symm

/-- An area that is live and has no update under way is put on the list. -/
theorem RxNode.Live.listed (h : s.Live e i) (hp : (s.hdr i).pending = false)
    (hw : (s.walk e).isSome = true) : i ∈ (s.walk e).getD [] := by
  rw [walk_eq hw, List.mem_filter]
  refine ⟨h.1, ?_⟩
  simp only [AreaFlags.skipped, RxNode.jobArea, hp, h.2, Bool.or_self, Bool.not_false]

theorem mem_areas_of_walk (hw : (s.walk e).isSome = true) (hi : i ∈ (s.walk e).getD []) :
    i ∈ e.areas := by
  rw [walk_eq hw, List.mem_filter] at hi
  exact (Rose.visited_mono (fun _ _ => rfl) e.tree i hi.1).1

/-- A message that is deferred changes the ring only. -/
theorem handle_defer (x : AreaMsg) (hh : (s.hdr x.1).hasHeader = true)
    (he : (s.hdr x.1).enqueue = true) (hcap : s.ring.length < e.cap) :
    s.handleMsgMem e x = { s with ring := s.ring ++ [x] } := by
  have hfull : decide (e.cap ≤ s.ring.length) = false := decide_eq_false (by omega)
  have hr := handle_queue s.late (s.receiver x.1) x.2 hh he
  simp only [RxNode.handleMsgMem, hfull, hr, he, ↓reduceIte]
  simp [RxNode.receiver, Function.update_eq_self]

theorem RxNode.Effect.handle (he : e.Wf) (h : s.Effect e s₀) (x : AreaMsg) (hx : x.1 ∈ e.areas)
    (hin : RxNode.Inside (e.desc x.1) x.2) (hq : (s.hdr x.1).enqueue = false) :
    (s.handleMsgMem e x).Effect e s₀ := by
  intro i hi hl
  have hi' := h i hi hl
  rw [(handle_queue_frame x hq).2, msgsOf_append, msgsOf_single, List.foldl_append]
  by_cases hxi : x.1 = i
  · subst hxi
    rw [if_pos rfl]
    have ha := hi'.handle hq s.late (e.cap ≤ s.ring.length) x.2
    refine ⟨?_, ?_, ?_, ?_, ?_, ?_, ha.rw⟩ <;>
      simp only [RxNode.receiver, RxNode.handleMsgMem, Function.update_self]
    · exact ha.hasHeader
    · exact ha.active
    · exact ha.pending
    · exact ha.ignore
    · exact ha.lastSyncExtV
    · exact ha.lastSyncExtBytes
  · rw [if_neg hxi]
    -- another area: its header is kept, and the message writes no line of it
    have hhdr : (s.handleMsgMem e x).hdr i = s.hdr i := Function.update_of_ne (Ne.symm hxi) _ _
    refine ⟨?_, ?_, ?_, ?_, ?_, ?_, ?_⟩ <;> simp only [RxNode.receiver, hhdr, List.foldl_nil]
    · exact hi'.hasHeader
    · exact hi'.active
    · exact hi'.pending
    · exact hi'.ignore
    · exact hi'.lastSyncExtV
    · exact hi'.lastSyncExtBytes
    · intro y hy
      refine Eq.trans ?_ (hi'.rw y hy)
      refine handle_rw _ _ hin.1 hq y fun hc => ?_
      exact he.apart x.1 hx i hi hxi _ (hin.2 _ hc) hy

/-- The invariant of the queue. -/
structure RxInv (e : RxEnv) (s₀ s : RxNode) : Prop where
  queued : ∀ x ∈ s.ring, e.isLocal x.1 = false ∧ s.Live e x.1 ∧ RxNode.Inside (e.desc x.1) x.2
  /-- outside of a sync only areas with EXT_ENQUEUE have messages in the ring -/
  flagged : s.jobs = none → s.ending = [] → ∀ x ∈ s.ring, (s.hdr x.1).enqueue = true
  deferring : ∀ i, (s.hdr i).enqueue = true →
    e.isLocal i = false ∧ (s.hdr i).pending = false ∧ s.Live e i
  listed : ∀ js, s.jobs = some js →
    (∀ i ∈ js, i ∈ e.areas) ∧ ∀ i, (s.hdr i).enqueue = true → i ∈ js
  told : ∀ js, s.jobs = some js → ∀ i ∈ js, (s.coop i).Told
  order : ∀ i, msgsOf i s.arrived = msgsOf i s.handled ++ msgsOf i s.ring ++ msgsOf i s.hand
  effect : s.Effect e s₀
  /-- a sync begins when no other one is to be drained after -/
  syncing : s.jobs ≠ none → s.ending = []
  /-- between a sync and its drain no area defers its messages -/
  quiet : s.ending ≠ [] → s.Quiet

/-- A message of an area that does not defer overtakes none of that area. -/
theorem RxInv.take (he : e.Wf) (h : RxInv e s₀ s) (hj : s.jobs = none) (hend : s.ending = [])
    (i : ℕ) (m : MemMsg) (rest : List AreaMsg) (hhand : s.hand = (i, m) :: rest)
    (hloc : e.isLocal i = false) (hlive : s.Live e i) (hin : RxNode.Inside (e.desc i) m)
    (hq : (s.hdr i).enqueue = false) :
    RxInv e s₀ { s.handleMsgMem e (i, m) with hand := rest } := by
  have ht := handle_frame s.late (e.cap ≤ s.ring.length) m (r := s.receiver i) hq
  obtain ⟨hring, hhandled⟩ := handle_queue_frame (e := e) (i, m) hq
  have hother (j : ℕ) (hji : j ≠ i) : (s.handleMsgMem e (i, m)).hdr j = s.hdr j :=
    Function.update_of_ne hji _ _
  have hstays (j : ℕ) (hl : s.Live e j) : (s.handleMsgMem e (i, m)).Live e j := by
    refine hl.mono rfl ?_ ?_ ?_
    · intro k hk
      by_cases hki : k = i
      · subst hki
        simp only [RxNode.handleMsgMem, Function.update_self, ht.hasHeader]
        exact hk
      · rwa [hother k hki]
    · intro k hk
      by_cases hki : k = i
      · subst hki
        simp only [RxNode.handleMsgMem, Function.update_self]
        exact ht.active hk
      · rwa [hother k hki]
    · by_cases hji : j = i
      · subst hji
        simp only [RxNode.handleMsgMem, Function.update_self, ht.sleeping]
        rfl
      · rw [hother j hji]
  refine ⟨?_, ?_, ?_, ?_, ?_, ?_, h.effect.handle he (i, m) hlive.mem hin hq,
    fun hn => absurd hj hn, fun hn => absurd hend hn⟩
  · intro x hx
    simp only [hring] at hx
    obtain ⟨hl, hx, hi⟩ := h.queued x hx
    exact ⟨hl, hstays x.1 hx, hi⟩
  · intro _ _ x hx
    simp only [hring] at hx
    have hx' := h.flagged hj hend x hx
    have hne : x.1 ≠ i := by
      intro hxi
      rw [hxi, hq] at hx'
      exact Bool.noConfusion hx'
    simp only [hother x.1 hne]
    exact hx'
  · intro j hjq
    by_cases hji : j = i
    · subst hji
      simp only [RxNode.handleMsgMem, Function.update_self] at hjq ⊢
      exact ⟨hloc, (ht.enqueue hjq).2, hstays j hlive⟩
    · simp only [hother j hji] at hjq ⊢
      obtain ⟨hl, hp, hlj⟩ := h.deferring j hjq
      exact ⟨hl, hp, hstays j hlj⟩
  · intro js hjs
    exact absurd (hj.symm.trans hjs) (by simp)
  · intro js hjs
    exact absurd (hj.symm.trans hjs) (by simp)
  · intro j
    have harr : (s.handleMsgMem e (i, m)).arrived = s.arrived := rfl
    have hcons : msgsOf j s.hand = msgsOf j [(i, m)] ++ msgsOf j rest := by
      rw [hhand, ← msgsOf_append]
      rfl
    simp only [harr, hring, hhandled, msgsOf_append, h.order j, hcons]
    by_cases hij : i = j
    · -- the ring holds no message of the area
      have hnil : msgsOf j s.ring = [] := by
        refine msgsOf_eq_nil fun x hx hxj => ?_
        have hx' := h.flagged hj hend x hx
        rw [hxj, ← hij, hq] at hx'
        exact Bool.noConfusion hx'
      rw [hnil]
      simp only [List.append_nil, List.append_assoc]
    · rw [msgsOf_single, if_neg hij]
      simp only [List.nil_append, List.append_nil]

theorem RxInv.defer (h : RxInv e s₀ s) (hj : s.jobs = none) (hend : s.ending = [])
    (i : ℕ) (m : MemMsg) (rest : List AreaMsg) (hhand : s.hand = (i, m) :: rest)
    (hloc : e.isLocal i = false) (hlive : s.Live e i) (hin : RxNode.Inside (e.desc i) m)
    (hq : (s.hdr i).enqueue = true) (hcap : s.ring.length < e.cap) :
    RxInv e s₀ { s.handleMsgMem e (i, m) with hand := rest } := by
  rw [handle_defer (i, m) hlive.hasHeader hq hcap]
  refine ⟨?_, ?_, h.deferring, h.listed, h.told, ?_, h.effect, fun hn => absurd hj hn,
    fun hn => absurd hend hn⟩
  · intro x hx
    rcases List.mem_append.mp hx with hx | hx
    · exact h.queued x hx
    · rw [List.mem_singleton.mp hx]
      exact ⟨hloc, hlive, hin⟩
  · intro _ _ x hx
    rcases List.mem_append.mp hx with hx | hx
    · exact h.flagged hj hend x hx
    · rw [List.mem_singleton.mp hx]
      exact hq
  · intro j
    have hcons : msgsOf j s.hand = msgsOf j [(i, m)] ++ msgsOf j rest := by
      rw [hhand, ← msgsOf_append]
      rfl
    simp only [msgsOf_append, h.order j, hcons, List.append_assoc]

theorem RxInv.sched (h : RxInv e s₀ s) (hend : s.ending = []) (hw : (s.walk e).isSome = true)
    (nrThreads : ℕ) : RxInv e s₀ (s.next e (.sched nrThreads)) := by
  refine ⟨h.queued, fun hf => absurd hf (by simp [RxNode.next]), h.deferring, ?_, ?_, h.order,
    h.effect, fun _ => hend, fun hn => absurd hend hn⟩
  · intro js hjs
    rw [← Option.some.inj hjs]
    refine ⟨fun i hi => mem_areas_of_walk hw hi, fun i hi => ?_⟩
    obtain ⟨-, hp, hl⟩ := h.deferring i hi
    exact hl.listed hp hw
  · intro js hjs i hi
    rw [← Option.some.inj hjs] at hi
    have hjob : (s.next e (.sched nrThreads)).job i =
        { node := (s.job i).node, extEnqueue := false } := if_pos hi
    refine ⟨fun t ht => ?_, fun h2 => ?_, fun hr => ?_⟩
    · simp [RxNode.coop, hjob] at ht
    · simp [RxNode.coop, hjob] at h2
    · simp [RxNode.coop, hjob] at hr

theorem RxInv.job (he : e.Wf) (h : RxInv e s₀ s) {js : List ℕ} (hjs : s.jobs = some js) {i : ℕ}
    (hi : i ∈ js) (t : ℕ) : RxInv e s₀ (s.stepJob e i t) := by
  have hother (j : ℕ) (hji : j ≠ i) : (s.stepJob e i t).hdr j = s.hdr j :=
    Function.update_of_ne hji _ _
  have hself : (s.stepJob e i t).hdr i =
      { s.hdr i with enqueue := ((s.coop i).step (s.coopEnv e i) t).extEnqueue } :=
    Function.update_self _ _ _
  -- a step of a job changes no field but EXT_ENQUEUE, and does not set it
  have hsame (j : ℕ) : ∃ b, (s.stepJob e i t).hdr j = { s.hdr j with enqueue := b } ∧
      (b = true → (s.hdr j).enqueue = true) := by
    by_cases hji : j = i
    · subst hji
      exact ⟨_, hself, step_extEnqueue t⟩
    · exact ⟨(s.hdr j).enqueue, hother j hji, id⟩
  have hstays (j : ℕ) (hl : s.Live e j) : (s.stepJob e i t).Live e j := by
    refine hl.mono rfl ?_ ?_ ?_
    · intro k hk
      obtain ⟨b, hb, -⟩ := hsame k
      rwa [hb]
    · intro k hk
      obtain ⟨b, hb, -⟩ := hsame k
      rwa [hb]
    · obtain ⟨b, hb, -⟩ := hsame j
      rw [hb]
  obtain ⟨hsub, hlisted⟩ := h.listed js hjs
  have hend : s.ending = [] := h.syncing (by simp [hjs])
  refine ⟨?_, ?_, ?_, ?_, ?_, h.order, ?_, fun _ => hend, fun hn => absurd hend hn⟩
  · intro x hx
    obtain ⟨hl, hx, hin⟩ := h.queued x hx
    exact ⟨hl, hstays x.1 hx, hin⟩
  · intro hf
    exact absurd (hf.symm.trans hjs) (by simp)
  · intro j hj
    obtain ⟨b, hb, hset⟩ := hsame j
    rw [hb] at hj ⊢
    obtain ⟨hl, hp, hlj⟩ := h.deferring j (hset hj)
    exact ⟨hl, hp, hstays j hlj⟩
  · intro js' hjs'
    rw [← Option.some.inj (hjs.symm.trans hjs')]
    refine ⟨hsub, fun j hj => ?_⟩
    obtain ⟨b, hb, hset⟩ := hsame j
    rw [hb] at hj
    exact hlisted j (hset hj)
  · intro js' hjs' j hj
    rw [← Option.some.inj (hjs.symm.trans hjs')] at hj
    have htold := h.told js hjs j hj
    by_cases hji : j = i
    · subst hji
      have hstep := htold.step (c := s.coopEnv e j) t
      have hjob : (s.stepJob e j t).job j = (s.coop j).step (s.coopEnv e j) t :=
        Function.update_self _ _ _
      refine ⟨?_, ?_, ?_⟩ <;> simp only [RxNode.coop, hjob, hself]
      · exact hstep.close
      · exact hstep.stage2
      · exact hstep.returned
    · have hjob : (s.stepJob e i t).job j = s.job j := Function.update_of_ne hji _ _
      refine ⟨?_, ?_, ?_⟩ <;> simp only [RxNode.coop, hjob, hother j hji]
      · exact htold.close
      · exact htold.stage2
      · exact htold.returned
  · intro j hj hl
    obtain ⟨b, hb, -⟩ := hsame j
    have hj' := h.effect j hj hl
    refine ⟨?_, ?_, ?_, ?_, ?_, ?_, ?_⟩ <;> simp only [RxNode.receiver, hb]
    · exact hj'.hasHeader
    · exact hj'.active
    · exact hj'.pending
    · exact hj'.ignore
    · exact hj'.lastSyncExtV
    · exact hj'.lastSyncExtBytes
    · intro x hx
      refine Eq.trans ?_ (hj'.rw x hx)
      refine step_rw t x fun hlocal => ?_
      -- a local area is another one, and its header lies in its own lines
      have hne : i ≠ j := by
        rintro rfl
        exact absurd (hlocal.symm.trans hl) (by simp)
      obtain ⟨hd, hpos⟩ := he.desc i (hsub i hi)
      have hapart := he.apart i (hsub i hi) j hj hne
      obtain ⟨a, ha⟩ := hd.h_aligned
      obtain ⟨b, hb⟩ := hd.end_aligned
      constructor
      · rintro rfl
        refine hapart _ ⟨?_, ?_⟩ hx <;> simp only [RxNode.coopEnv, offVersion] <;> omega
      · rintro rfl
        refine hapart _ ⟨?_, ?_⟩ hx <;> simp only [RxNode.coopEnv, offTime] <;> omega

/-- When the daemon is told that all jobs are done, no area defers, and no time has passed. -/
theorem RxInv.quiet_of_done (h : RxInv e s₀ s) {t : ℕ} (hp : s.pre e (.done t)) :
    (s.synced t).Quiet := by
  obtain ⟨js, hjs, hdone⟩ := hp
  constructor
  · intro i
    by_contra hq
    have hi := (h.listed js hjs).2 i ((Bool.not_eq_false _).mp hq)
    exact hq ((h.told js hjs i hi).returned (List.ne_nil_of_mem (hdone i hi)))
  · simp only [RxNode.late, RxNode.synced, sub_self, Int.zero_emod, mul_zero, decide_eq_false_iff_not]
    omega

theorem RxNode.Effect.foldl (he : e.Wf) (h : s.Effect e s₀) (hq : s.Quiet) (ms : List AreaMsg)
    (hms : ∀ x ∈ ms, x.1 ∈ e.areas ∧ RxNode.Inside (e.desc x.1) x.2) :
    (ms.foldl (RxNode.handleMsgMem e) s).Effect e s₀ := by
  induction ms generalizing s with
  | nil => exact h
  | cons x ms ih =>
    obtain ⟨hx, hin⟩ := hms x List.mem_cons_self
    exact ih (h.handle he x hx hin (hq.flags x.1)) (hq.handle x).1
      fun y hy => hms y (List.mem_cons_of_mem _ hy)

theorem foldl_frame (ms : List AreaMsg) :
    (ms.foldl (RxNode.handleMsgMem e) s).arrived = s.arrived ∧
    (ms.foldl (RxNode.handleMsgMem e) s).jobs = s.jobs ∧
    (ms.foldl (RxNode.handleMsgMem e) s).hand = s.hand := by
  induction ms generalizing s with
  | nil => exact ⟨rfl, rfl, rfl⟩
  | cons x ms ih => exact ih

theorem ending_ne_nil {p : EndPc} (h : s.ending.head? = some p) : s.ending ≠ [] := by
  intro hn
  rw [hn] at h
  cases h

/-- The drain handles what is in the ring and leaves it empty. -/
theorem RxNode.Quiet.drained (h : s.Quiet) :
    ∃ s', (∀ fuel, s.ring.length < fuel → RxNode.serviceRing e fuel s = some s') ∧
      s'.handled = s.handled ++ s.ring ∧ s'.ring = [] ∧ s'.Quiet := by
  have hempty : RxNode.Quiet { s with ring := [] } := ⟨h.flags, h.early⟩
  obtain ⟨h1, h2, h3⟩ := hempty.foldl (e := e) s.ring
  exact ⟨_, fun fuel hf => h.serviceRing hf, h3, h2, h1⟩

theorem RxInv.done (h : RxInv e s₀ s) {t : ℕ} (hp : s.pre e (.done t)) :
    RxInv e s₀ (s.next e (.done t)) := by
  have hq := h.quiet_of_done hp
  refine ⟨h.queued, fun _ hend => absurd hend (by simp [RxNode.next]), h.deferring, ?_, ?_,
    h.order, h.effect, fun hn => absurd rfl hn, fun _ => ⟨hq.flags, hq.early⟩⟩
  · intro js hjs
    exact absurd hjs (by simp [RxNode.next, RxNode.synced])
  · intro js hjs
    exact absurd hjs (by simp [RxNode.next, RxNode.synced])

/-- Fuel does not change the result. -/
theorem serviceRing_mono {fuel fuel' : ℕ} {s' : RxNode}
    (h : RxNode.serviceRing e fuel s = some s') (hf : fuel ≤ fuel') :
    RxNode.serviceRing e fuel' s = some s' := by
  induction fuel generalizing s fuel' with
  | zero => cases h
  | succ fuel ih =>
    obtain ⟨fuel', rfl⟩ := Nat.exists_eq_add_of_le' (Nat.one_le_of_lt hf)
    rw [RxNode.serviceRing] at h ⊢
    split at h
    · exact h
    · exact ih h (Nat.le_of_succ_le_succ hf)

theorem RxInv.drain (he : e.Wf) (h : RxInv e s₀ s) {fuel : ℕ} (hp : s.pre e (.drain fuel)) :
    RxInv e s₀ (s.next e (.drain fuel)) := by
  obtain ⟨hj, hhead, hsome⟩ := hp
  have hq : s.Quiet := h.quiet (ending_ne_nil hhead)
  -- the loop has ended with the messages of the ring handled
  have hserve : RxNode.serviceRing e fuel s =
      some (s.ring.foldl (RxNode.handleMsgMem e) { s with ring := [] }) := by
    obtain ⟨s', hs'⟩ := Option.isSome_iff_exists.mp hsome
    have hmax := serviceRing_mono hs' (le_max_left fuel (s.ring.length+1))
    rw [hq.serviceRing (by omega)] at hmax
    rw [hs', hmax]
  have hempty : RxNode.Quiet { s with ring := [] } := ⟨hq.flags, hq.early⟩
  obtain ⟨hquiet, hring, hhandled⟩ := hempty.foldl (e := e) s.ring
  obtain ⟨harr, hjobs, hhand⟩ := foldl_frame (e := e) (s := { s with ring := [] }) s.ring
  have heff : RxNode.Effect e { s with ring := [] } s₀ := h.effect
  have heffect := heff.foldl he hempty s.ring
    fun x hx => ⟨(h.queued x hx).2.1.mem, (h.queued x hx).2.2⟩
  simp only [RxNode.next, hserve, Option.getD_some]
  generalize s.ring.foldl (RxNode.handleMsgMem e) { s with ring := [] } = s' at *
  have hnone : s'.jobs = none := hjobs.trans hj
  refine ⟨?_, ?_, ?_, ?_, ?_, ?_, heffect, fun hn => absurd hnone hn,
    fun _ => ⟨hquiet.flags, hquiet.early⟩⟩
  · simp only [hring]
    exact fun x hx => absurd hx List.not_mem_nil
  · simp only [hring]
    exact fun _ _ x hx => absurd hx List.not_mem_nil
  · intro i hi
    rw [hquiet.flags i] at hi
    exact Bool.noConfusion hi
  · intro js hjs
    exact absurd (hnone.symm.trans hjs) (by simp)
  · intro js hjs
    exact absurd (hnone.symm.trans hjs) (by simp)
  · intro i
    simp only [harr, hhandled, hring, hhand, msgsOf_append, h.order i]
    simp [msgsOf]

/-- A step that changes neither headers nor the queue. -/
theorem RxInv.idle (h : RxInv e s₀ s) (hend : s.ending = []) (s' : RxNode)
    (hmem : s'.mem.rw = s.mem.rw) (hhdr : s'.hdr = s.hdr) (howner : s'.owner = s.owner)
    (hring : s'.ring = s.ring) (hhand : s'.hand = s.hand) (hend' : s'.ending = s.ending)
    (hjobs : s'.jobs = s.jobs) (hjob : s'.job = s.job) (harr : s'.arrived = s.arrived)
    (hhandled : s'.handled = s.handled) : RxInv e s₀ s' := by
  have hlive (i : ℕ) (hl : s.Live e i) : s'.Live e i := by
    apply hl.mono howner <;> simp only [hhdr, imp_self, implies_true]
  refine ⟨?_, ?_, ?_, ?_, ?_, ?_, ?_, ?_, ?_⟩
  · intro x hx
    obtain ⟨hl, hlx, hin⟩ := h.queued x (hring ▸ hx)
    exact ⟨hl, hlive x.1 hlx, hin⟩
  · rw [hjobs, hend', hring, hhdr]
    exact h.flagged
  · intro i hi
    rw [hhdr] at hi ⊢
    obtain ⟨hl, hp, hli⟩ := h.deferring i hi
    exact ⟨hl, hp, hlive i hli⟩
  · rw [hjobs, hhdr]
    exact h.listed
  · intro js hjs i hi
    have ht := h.told js (hjobs ▸ hjs) i hi
    refine ⟨?_, ?_, ?_⟩ <;> simp only [RxNode.coop, hjob, hhdr]
    · exact ht.close
    · exact ht.stage2
    · exact ht.returned
  · rw [harr, hhandled, hring, hhand]
    exact h.order
  · intro i hi hl
    have hi' := h.effect i hi hl
    rw [hhandled]
    refine ⟨?_, ?_, ?_, ?_, ?_, ?_, ?_⟩ <;> simp only [RxNode.receiver, hhdr, hmem]
    · exact hi'.hasHeader
    · exact hi'.active
    · exact hi'.pending
    · exact hi'.ignore
    · exact hi'.lastSyncExtV
    · exact hi'.lastSyncExtBytes
    · exact hi'.rw
  · exact fun _ => hend'.trans hend
  · exact fun hn => absurd (hend'.trans hend) hn

/-- Where the calls of `tasvir_service` are matters only for whether there is one. -/
theorem RxInv.setEnding (h : RxInv e s₀ s) (hj : s.jobs = none) (hend : s.ending ≠ [])
    (ending : List EndPc) (hne : ending ≠ []) : RxInv e s₀ { s with ending } :=
  ⟨h.queued, fun _ hn => absurd hn hne, h.deferring, h.listed, h.told, h.order, h.effect,
    fun hn => absurd hj hn, fun _ => ⟨(h.quiet hend).flags, (h.quiet hend).early⟩⟩

theorem RxInv.other (h : RxInv e s₀ s) {mem : NodeMem} {hdr : ℕ → RxHeader}
    {owner : ℕ → AreaOwner} (hs : s.Spares e mem hdr owner) :
    RxInv e s₀ { s with mem, hdr, owner } := by
  refine ⟨?_, ?_, ?_, ?_, ?_, h.order, ?_, h.syncing, ?_⟩
  · intro x hx
    obtain ⟨hl, hlx, hin⟩ := h.queued x hx
    exact ⟨hl, hs.live x.1 hl hlx, hin⟩
  · intro hj hend x hx
    exact (hs.enqueue x.1).trans (h.flagged hj hend x hx)
  · intro i hi
    obtain ⟨hl, hp, hli⟩ := h.deferring i ((hs.enqueue i).symm.trans hi)
    exact ⟨hl, (congrArg RxHeader.pending (hs.same i hl)).trans hp, hs.live i hl hli⟩
  · intro js hjs
    obtain ⟨hsub, hlisted⟩ := h.listed js hjs
    exact ⟨hsub, fun i hi => hlisted i ((hs.enqueue i).symm.trans hi)⟩
  · intro js hjs i hi
    have ht := h.told js hjs i hi
    refine ⟨?_, ?_, ?_⟩ <;> simp only [RxNode.coop, hs.enqueue i]
    · exact ht.close
    · exact ht.stage2
    · exact ht.returned
  · intro i hi hl
    have hi' := h.effect i hi hl
    refine ⟨?_, ?_, ?_, ?_, ?_, ?_, ?_⟩ <;> simp only [RxNode.receiver, hs.same i hl]
    · exact hi'.hasHeader
    · exact hi'.active
    · exact hi'.pending
    · exact hi'.ignore
    · exact hi'.lastSyncExtV
    · exact hi'.lastSyncExtBytes
    · intro x hx
      exact (hs.rw i hi hl x hx).trans (hi'.rw x hx)
  · intro hn
    have hq := h.quiet hn
    exact ⟨fun i => (hs.enqueue i).trans (hq.flags i), hq.early⟩

/-- Step lemma. -/
theorem RxInv.next (he : e.Wf) (h : RxInv e s₀ s) (a : RxAct) (hp : s.pre e a)
    (hu : s.unnested a) : RxInv e s₀ (s.next e a) := by
  cases a with
  | tick t => exact h.idle hu.1 _ rfl rfl rfl rfl rfl rfl rfl rfl rfl rfl
  | reset => exact h.idle hu.1 _ rfl rfl rfl rfl rfl rfl rfl rfl rfl rfl
  | boot => exact h.idle hu.1 _ rfl rfl rfl rfl rfl rfl rfl rfl rfl rfl
  | fail t => exact h.idle hu.1 _ rfl rfl rfl rfl rfl rfl rfl rfl rfl rfl
  | burst ms =>
    refine ⟨h.queued, h.flagged, h.deferring, h.listed, h.told, ?_, h.effect, h.syncing,
      fun hn => absurd hu.1 hn⟩
    intro i
    -- nothing of an earlier burst is in hand
    simp only [RxNode.next, hu.2, msgsOf_append, h.order i]
    simp [msgsOf]
  | recv i m =>
    obtain ⟨hserve, hhead, hloc, hlive, hin, hcap⟩ := hp
    have hhand : s.hand = (i, m) :: s.hand.tail := List.eq_cons_of_mem_head? hhead
    cases hq : (s.hdr i).enqueue
    · exact h.take he hserve.1 hu i m _ hhand hloc hlive hin hq
    · exact h.defer hserve.1 hu i m _ hhand hloc hlive hin hq (hcap hq)
  | sched nrThreads => exact h.sched hu.1 hp.2.2 nrThreads
  | job i t =>
    obtain ⟨js, hjs, hi⟩ := hp
    exact h.job he hjs hi t
  | done t => exact h.done hp
  | kill =>
    exact h.setEnding hp.1 (ending_ne_nil hp.2) _ (List.cons_ne_nil _ _)
  | killed =>
    exact h.setEnding hp.1 (ending_ne_nil hp.2) _ (List.cons_ne_nil _ _)
  | drain fuel => exact h.drain he hp
  | other mem hdr owner => exact h.other hp

end Step

/-- A daemon that has deferred nothing so far and is not in a sync. -/
structure RxNode.Fresh (s : RxNode) : Prop where
  ring : s.ring = []
  hand : s.hand = []
  ending : s.ending = []
  jobs : s.jobs = none
  flags : ∀ i, (s.hdr i).enqueue = false
  arrived : s.arrived = []
  handled : s.handled = []

theorem rxInv_reachable {e : RxEnv} (he : e.Wf) {s₀ s : RxNode} (h₀ : s₀.Fresh)
    (h : ((rxSystem e s₀).restrict RxNode.unnested).Reachable s) : RxInv e s₀ s := by
  refine h.invariant ?_ fun s a hs ha => hs.next he a ha.1 ha.2
  rintro s rfl
  refine ⟨?_, ?_, ?_, ?_, ?_, ?_, ?_, fun _ => h₀.ending, fun hn => absurd h₀.ending hn⟩
  · rw [h₀.ring]
    exact fun x hx => absurd hx List.not_mem_nil
  · rw [h₀.ring]
    exact fun _ _ x hx => absurd hx List.not_mem_nil
  · intro i hi
    rw [h₀.flags i] at hi
    exact Bool.noConfusion hi
  · intro js hjs
    exact absurd (h₀.jobs.symm.trans hjs) (by simp)
  · intro js hjs
    exact absurd (h₀.jobs.symm.trans hjs) (by simp)
  · intro i
    rw [h₀.arrived, h₀.handled, h₀.ring, h₀.hand]
    rfl
  · intro i _ _
    rw [h₀.handled]
    exact ⟨rfl, rfl, rfl, rfl, rfl, rfl, fun _ _ => rfl⟩

/-- When no call of `tasvir_service` runs inside of another one that has messages in hand or a
ring to drain: in every state of every run the messages of an area that have taken effect are
the first ones that arrived, as if none had been deferred, and the others wait in the ring and
in hand in order. An area with EXT_ENQUEUE has no update under way and is part of the sync
that goes on or is scheduled next; when a sync is done no area has the flag, and the drain
ends after it has handled every message of the ring once and put none back. -/
theorem deferred_in_order_and_drained (e : RxEnv) (he : e.Wf) (s₀ s : RxNode) (h₀ : s₀.Fresh)
    (h : ((rxSystem e s₀).restrict RxNode.unnested).Reachable s) :
    (∀ i ∈ e.areas, e.isLocal i = false →
      msgsOf i s.arrived = msgsOf i s.handled ++ msgsOf i s.ring ++ msgsOf i s.hand ∧
      Agrees (e.desc i) (s.receiver i)
        ((msgsOf i s.handled).foldl Receiver.direct (s₀.receiver i))) ∧
    (∀ i, (s.hdr i).enqueue = true → (s.hdr i).pending = false ∧
      (∀ js, s.jobs = some js → i ∈ js) ∧
      ∀ n, s.pre e (.sched n) → ∃ js, (s.next e (.sched n)).jobs = some js ∧ i ∈ js) ∧
    (∀ t, s.pre e (.done t) → ∀ i, ((s.next e (.done t)).hdr i).enqueue = false) ∧
    (s.ending.head? = some .ended → ∃ s',
      (∀ fuel, s.ring.length < fuel → RxNode.serviceRing e fuel s = some s') ∧
      s'.handled = s.handled ++ s.ring ∧ s'.ring = [] ∧ ∀ i, (s'.hdr i).enqueue = false) := by
  have hinv := rxInv_reachable he h₀ h
  refine ⟨fun i hi hl => ⟨hinv.order i, hinv.effect i hi hl⟩, ?_, ?_, ?_⟩
  · intro i hi
    obtain ⟨-, hp, hlive⟩ := hinv.deferring i hi
    exact ⟨hp, fun js hjs => (hinv.listed js hjs).2 i hi,
      fun n hn => ⟨_, rfl, hlive.listed hp hn.2.2⟩⟩
  · exact fun t ht => (hinv.quiet_of_done ht).flags
  · intro hhead
    obtain ⟨s', hfuel, hhandled, hring, hquiet⟩ := (hinv.quiet (ending_ne_nil hhead)).drained (e := e)
    exact ⟨s', hfuel, hhandled, hring, hquiet.flags⟩

/-- A remote container with a local area in it that is not in use yet. -/
def lateEnv : RxEnv where
  tree := .node 0 [.node 1 []]
  desc := fun i => ⟨32768*(i+1), 32768, i = 0⟩
  isLocal := fun i => i = 1
  syncIntUs := fun _ => 10
  cap := 8

/-- The interval is over, and the next sync has not begun. -/
def lateNode : RxNode where
  mem := coopNode.mem
  hdr := fun i => ⟨true, i = 0, false, false, false, false, 0, 0⟩
  owner := fun i => if i = 1 then .here 1 else .away
  booting := false
  timeUs := 10
  lastSyncIntEnd := 0
  syncIntUs := 10
  job := fun _ => { node := coopNode, extEnqueue := false }

/-- An update of one line. -/
def lateMsg (v : ℕ) : MemMsg where
  id := 0
  d := ⟨32768, 32768, true⟩
  version := v
  addr := some (64*533)
  len := 64
  last := true
  prevBytes := 0
  line := fun _ => v

theorem lateMsg_inside (v : ℕ) : RxNode.Inside (lateEnv.desc 0) (lateMsg v) := by
  refine ⟨⟨533, 1, rfl, rfl, by norm_num, by norm_num⟩, fun l hl => ?_⟩
  have hrun : (lateMsg v).run = (533, 1) := MemMsg.Wf.run rfl rfl
  rw [hrun, covers_cons] at hl
  simp only [covers_nil, or_false] at hl
  exact ⟨by simp only [lateEnv]; omega, by simp only [lateEnv]; omega⟩

theorem lateEnv_wf : lateEnv.Wf := by
  have hareas : lateEnv.areas = [0, 1] := by decide
  constructor
  · intro i hi
    rw [hareas] at hi
    simp only [List.mem_cons, List.not_mem_nil, or_false] at hi
    rcases hi with rfl | rfl <;>
      exact ⟨⟨by norm_num [lateEnv], by norm_num [lateEnv], by norm_num [lateEnv],
        by norm_num [lateEnv]⟩, by norm_num [lateEnv]⟩
  · intro i _ j _ hij l hi hj
    simp only [AreaDesc.Has, lateEnv] at hi hj
    omega

/-- The first update sets EXT_ENQUEUE, the second one waits, and a sync clears the flag. -/
def lateActs : List RxAct :=
  [.burst [(0, lateMsg 1)], .recv 0 (lateMsg 1), .burst [(0, lateMsg 2)], .recv 0 (lateMsg 2),
    .sched 1] ++ List.replicate 15 (.job 0 0) ++ [.done 20]

theorem lateNode_fresh : lateNode.Fresh := ⟨rfl, rfl, rfl, rfl, fun _ => rfl, rfl, rfl⟩

/-- Threads may make any number of steps in a job of the list. -/
theorem enabled_jobs {e : RxEnv} {s₀ s : RxNode} {js : List ℕ} {i : ℕ} (hi : i ∈ js)
    (hjs : s.jobs = some js) (t n : ℕ) :
    ((rxSystem e s₀).restrict RxNode.unnested).Enabled s (List.replicate n (.job i t)) := by
  induction n generalizing s with
  | zero => trivial
  | succ n ih => exact ⟨⟨⟨js, hjs, hi⟩, trivial⟩, ih hjs⟩

theorem lateActs_enabled :
    ((rxSystem lateEnv lateNode).restrict RxNode.unnested).Enabled lateNode lateActs := by
  have hserve {s : RxNode} (hj : s.jobs = none) (hend : s.ending = []) : s.Serving :=
    ⟨hj, by rw [hend]; simp⟩
  apply System.enabled_append
  · apply System.enabled_append
    · exact ⟨⟨⟨hserve rfl rfl, by decide⟩, rfl, rfl⟩,
        ⟨⟨hserve rfl rfl, rfl, rfl, ⟨by decide +kernel, by decide +kernel⟩, lateMsg_inside 1,
          fun _ => by decide +kernel⟩, rfl⟩,
        ⟨⟨hserve rfl rfl, by decide⟩, rfl, rfl⟩,
        ⟨⟨hserve rfl rfl, rfl, rfl, ⟨by decide +kernel, by decide +kernel⟩, lateMsg_inside 2,
          fun _ => by decide +kernel⟩, rfl⟩,
        ⟨⟨hserve rfl rfl, rfl, by decide +kernel⟩, rfl, rfl⟩, trivial⟩
    · exact enabled_jobs (List.mem_singleton_self 0) (by decide +kernel) 0 15
  · refine ⟨⟨⟨[0], by decide +kernel, ?_⟩, trivial⟩, trivial⟩
    intro i hi
    rw [List.mem_singleton.mp hi]
    decide +kernel

/-- After the sync the drain handles the message that waits. -/
theorem deferred_in_order_and_drained_late :
    ∃ s s', ((rxSystem lateEnv lateNode).restrict RxNode.unnested).Reachable s ∧
      s.ring = [(0, lateMsg 2)] ∧ RxNode.serviceRing lateEnv 2 s = some s' ∧
      s'.handled = [(0, lateMsg 1), (0, lateMsg 2)] ∧ s'.ring = [] ∧
      msgsOf 0 s.arrived = [lateMsg 1, lateMsg 2] := by
  have hrun := (System.Reachable.init
    (S := (rxSystem lateEnv lateNode).restrict RxNode.unnested) rfl).run lateActs lateActs_enabled
  obtain ⟨horder, -, -, hdrain⟩ :=
    deferred_in_order_and_drained lateEnv lateEnv_wf lateNode _ lateNode_fresh hrun
  obtain ⟨s', hfuel, hhandled, hring, -⟩ := hdrain rfl
  exact ⟨_, s', hrun, rfl, hfuel 2 (by decide +kernel), hhandled, hring,
    (horder 0 (by decide) rfl).1⟩

section Stuck
variable {e : RxEnv} {s : RxNode}

/-- Messages that are all put back. -/
theorem foldl_defer (ms : List AreaMsg)
    (hms : ∀ x ∈ ms, (s.hdr x.1).hasHeader = true ∧ (s.hdr x.1).enqueue = true)
    (hcap : s.ring.length+ms.length ≤ e.cap) :
    ms.foldl (RxNode.handleMsgMem e) s = { s with ring := s.ring ++ ms } := by
  induction ms generalizing s with
  | nil => rw [List.foldl_nil, List.append_nil]
  | cons x ms ih =>
    obtain ⟨hh, he⟩ := hms x List.mem_cons_self
    rw [List.length_cons] at hcap
    have hlen : (s.ring ++ [x]).length+ms.length ≤ e.cap := by
      rw [List.length_append, List.length_singleton]
      omega
    rw [List.foldl_cons, handle_defer x hh he (by omega),
      ih (s := { s with ring := s.ring ++ [x] }) (fun y hy => hms y (List.mem_cons_of_mem x hy))
        hlen, List.append_assoc]
    rfl

/-- When every area of the ring defers its messages, the loop never ends. -/
theorem serviceRing_stuck (hne : s.ring ≠ [])
    (hring : ∀ x ∈ s.ring, (s.hdr x.1).hasHeader = true ∧ (s.hdr x.1).enqueue = true)
    (hcap : s.ring.length ≤ e.cap) (fuel : ℕ) : RxNode.serviceRing e fuel s = none := by
  induction fuel generalizing s with
  | zero => rfl
  | succ fuel ih =>
    rw [RxNode.serviceRing]
    cases hms : s.ring.take pktBurst with
    | nil =>
      rcases List.take_eq_nil_iff.mp hms with hb | hb
      · exact absurd hb (by decide)
      · exact absurd hb hne
    | cons x xs =>
      dsimp only
      rw [← hms]
      have hparts : (s.ring.drop pktBurst).length+(s.ring.take pktBurst).length = s.ring.length := by
        rw [← List.length_append, List.length_append, Nat.add_comm, ← List.length_append,
          List.take_append_drop]
      rw [foldl_defer (s := { s with ring := s.ring.drop pktBurst }) _
        (fun y hy => hring y (List.mem_of_mem_take hy)) (hparts.trans_le hcap)]
      -- the pass has only turned the ring around
      apply ih
      · simp only [hms]
        exact List.append_ne_nil_of_right_ne_nil _ (List.cons_ne_nil _ _)
      · intro y hy
        rcases List.mem_append.mp hy with hy | hy
        · exact hring y (List.mem_of_mem_drop hy)
        · exact hring y (List.mem_of_mem_take hy)
      · rw [List.length_append]
        exact hparts.trans_le hcap

end Stuck

/-- At the end of that sync thread 1 does not answer. While the daemon waits for the owner of
the container to give it the area of thread 1, an update comes late in the interval, and a
sync fails because thread 1 is still counted. -/
def killActs : List RxAct :=
  [.kill, .tick 27, .burst [(0, lateMsg 3)], .recv 0 (lateMsg 3), .tick 30, .fail 31, .killed]

/-- The update that comes late is handled at once. -/
theorem killActs_run (s : RxNode) (hend : s.ending = [.ended]) (hq : (s.hdr 0).enqueue = false) :
    ((rxSystem lateEnv lateNode).run s killActs).ending = [.ended] ∧
    ((rxSystem lateEnv lateNode).run s killActs).ring = s.ring ∧
    ((rxSystem lateEnv lateNode).run s killActs).arrived = s.arrived ++ [(0, lateMsg 3)] ∧
    ((rxSystem lateEnv lateNode).run s killActs).handled = s.handled ++ [(0, lateMsg 3)] := by
  obtain ⟨hring, hhandled⟩ := handle_queue_frame (e := lateEnv) (s := { s with
    ending := [.killing], timeUs := 27, hand := (0, lateMsg 3) :: s.hand,
    arrived := s.arrived ++ [(0, lateMsg 3)] }) (0, lateMsg 3) hq
  refine ⟨?_, ?_, rfl, ?_⟩
  · change .ended :: s.ending.tail = _
    rw [hend, List.tail_cons]
  · rw [← hring]
    simp only [System.run, killActs, List.foldl_cons, List.foldl_nil, rxSystem, RxNode.next, hend,
      List.tail_cons, List.singleton_append]
  · rw [← hhandled]
    rfl

/-- The update has overtaken the one that waits in the ring, and the drain puts that one back
for ever. -/
theorem drain_after_kill_never_ends :
    lateEnv.Wf ∧ lateNode.Fresh ∧ ∃ s, (rxSystem lateEnv lateNode).Reachable s ∧
      s.ending = [.ended] ∧ s.ring = [(0, lateMsg 2)] ∧
      (∀ fuel, RxNode.serviceRing lateEnv fuel s = none) ∧
      s.arrived = [(0, lateMsg 1), (0, lateMsg 2), (0, lateMsg 3)] ∧
      s.handled = [(0, lateMsg 1), (0, lateMsg 3)] := by
  have hserve {s : RxNode} (hj : s.jobs = none) (hend : s.ending = [.killing]) : s.Serving :=
    ⟨hj, by rw [hend]; simp⟩
  have hsync : (rxSystem lateEnv lateNode).Reachable
      ((rxSystem lateEnv lateNode).run lateNode lateActs) :=
    ((System.Reachable.init (S := (rxSystem lateEnv lateNode).restrict RxNode.unnested) rfl).run
      lateActs lateActs_enabled).of_restrict
  have hrun := hsync.run killActs
    ⟨⟨rfl, rfl⟩, hserve rfl rfl, ⟨hserve rfl rfl, by decide⟩,
      ⟨hserve rfl rfl, rfl, rfl, ⟨by decide +kernel, by decide +kernel⟩, lateMsg_inside 3,
        fun _ => by decide +kernel⟩,
      hserve rfl rfl, ⟨hserve rfl rfl, rfl, by decide +kernel⟩, ⟨rfl, rfl⟩, trivial⟩
  obtain ⟨hend, hring, harr, hhandled⟩ := killActs_run
    ((rxSystem lateEnv lateNode).run lateNode lateActs) rfl (by decide +kernel)
  refine ⟨lateEnv_wf, lateNode_fresh, _, hrun, hend, hring, ?_, harr, hhandled⟩
  have hqueue : ((rxSystem lateEnv lateNode).run ((rxSystem lateEnv lateNode).run lateNode lateActs)
      killActs).ring = [(0, lateMsg 2)] := hring
  apply serviceRing_stuck
  · rw [hqueue]
    exact List.cons_ne_nil _ _
  · rw [hqueue]
    intro x hx
    rw [List.mem_singleton.mp hx]
    exact ⟨by decide +kernel, by decide +kernel⟩
  · rw [hqueue]
    decide

end Tasvir
