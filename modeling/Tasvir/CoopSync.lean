import Mathlib.Tactic
import Tasvir.Changes
import Tasvir.Container
import Tasvir.ThreadTable

/-! The cooperative part of an internal sync. All participants call
`tasvir_sync_internal_job` on a job until it is done; they claim chunks of the
area with a fetch-and-add, and whoever brings `bytes_seen` to the size of the
area executes the completion block. A step is one access to the job or one call
that works on the memory. -/
namespace Tasvir
open RunLength Machine

/-- The first loop of `tasvir_sched_sync_internal`, over the given slots: `gone`
says that a thread missed its heartbeat and its process no longer exists, `kill`
is whatever `tasvir_kill_thread` does to the table. The count is `nr_threads`. -/
def schedScan (gone : ℕ → Bool) (kill : ThreadTable → ℕ → ThreadTable) :
    List ℕ → ThreadTable → ThreadTable × ℕ
  | [], t => (t, 0)
  | tid :: tids, t =>
    let t := t.handOver tid
    if (t.tdata tid).state = .running then
      if gone tid then schedScan gone kill tids (kill t tid)
      else
        let r := schedScan gone kill tids t
        (r.1, r.2+1)
    else schedScan gone kill tids t

/-- `job_bytes` for the areas on the job list. -/
def jobBytes (areas : List AreaDesc) (nrThreads : ℕ) : ℕ :=
  let total := areas.foldl (fun b d => u64 (b+d.offsetLogEnd)) 0
  max (total/u64 (nrThreads*8) &&& (2^64-1-(alignment-1))) (alignment*4)

/-- The counters and flags of `tasvir_sync_job`. -/
structure SyncJob where
  doneStage1 : Bool := false
  doneStage2 : Bool := false
  doneStage3 : Bool := false
  offset : ℕ := 0
  bytesSeen : ℕ := 0
  bytesUpdated : ℕ := 0
deriving DecidableEq, Repr

/-- Where a thread is in `tasvir_sync_internal_job`; `seen` and `updated` are
its local variables. -/
inductive JobPc
  /-- between two visits -/
  | out
  /-- about to test `done_stage1` for the first time -/
  | start
  /-- about to test `done_stage1` in the loop condition -/
  | loop (seen : ℕ)
  /-- about to fetch and add `offset` -/
  | claim (seen : ℕ)
  | parse (seen offset len : ℕ)
  /-- the loop is over -/
  | left (seen : ℕ)
  /-- about to set `done_stage1` -/
  | raise (seen : ℕ)
  /-- about to call `tasvir_sync_process_changes` -/
  | copy (seen : ℕ)
  | add (seen updated : ℕ)
  | count (seen updated : ℕ)
  /-- about to execute the completion block -/
  | finish (updated : ℕ)
  /-- about to set `done_stage2` -/
  | close
  /-- about to read the return value -/
  | last
deriving DecidableEq, Repr

/-- What a job and its threads do not change: the area, whether it is local, the
slot of its owner when that is a thread of this node, `job_bytes` and `time_us`. -/
structure CoopEnv where
  d : AreaDesc
  isLocal : Bool
  owner : Option ℕ
  jobBytes : ℕ
  timeUs : ℕ

namespace CoopEnv

def selfSync (e : CoopEnv) : Bool := e.d.offsetLogEnd < 500*1000

/-- `is_local_writer` of thread `t`; the daemon writes areas that are not local. -/
def isLocalWriter (e : CoopEnv) (t : ℕ) : Bool :=
  e.owner = some t ∨ (t = 0 ∧ e.isLocal = false)

end CoopEnv

/-- `evs`, `finals` and `returned` record the calls on the memory, the threads
that executed the completion block and those that were told the job is done. -/
structure CoopState where
  node : OwnerNode
  /-- TASVIR_AREA_FLAG_EXT_ENQUEUE of the RW copy -/
  extEnqueue : Bool
  job : SyncJob := {}
  pc : ℕ → JobPc := fun _ => .out
  evs : List SyncEvent := []
  finals : List ℕ := []
  returned : List ℕ := []

namespace CoopState

def goto (s : CoopState) (t : ℕ) (p : JobPc) : CoopState :=
  { s with pc := Function.update s.pc t p }

def call (e : CoopEnv) (s : CoopState) (ev : SyncEvent) : CoopState :=
  { s with
    node := { s.node with mem := syncEvent e.d e.isLocal s.node.mem ev }
    evs := s.evs ++ [ev] }

/-- The completion block up to `done_stage2`. -/
def complete (e : CoopEnv) (s : CoopState) (t updated : ℕ) : CoopState :=
  let s := { s with extEnqueue := false, finals := t :: s.finals }
  if updated ≠ 0 ∨ s.job.bytesUpdated ≠ 0 then
    if e.isLocal then { s with node := s.node.publish e.d e.timeUs }
    else { s with node := { s.node with sleeping := false } }
  else { s with job := { s.job with doneStage3 := true } }

/-- The next step of thread `t`. -/
def step (e : CoopEnv) (s : CoopState) (t : ℕ) : CoopState :=
  match s.pc t with
  | .out =>
    -- a small area is left to its writer
    if s.job.doneStage2 then { s with returned := t :: s.returned }
    else if e.selfSync && !e.isLocalWriter t then s
    else s.goto t .start
  | .start => s.goto t (if s.job.doneStage1 then .out else .loop 0)
  | .loop seen => s.goto t (if s.job.doneStage1 then .left seen else .claim seen)
  | .claim seen =>
    -- the fetch-and-add comes first, also when there is nothing left to claim
    let offset := s.job.offset
    let s := { s with job := { s.job with offset := u64 (offset+e.jobBytes) } }
    s.goto t (if offset < e.d.offsetLogEnd then
      .parse seen offset (min e.jobBytes (e.d.offsetLogEnd-offset)) else .left seen)
  | .parse seen offset len => (s.call e (.parse t offset len)).goto t (.loop (seen+len))
  | .left seen =>
    -- a thread that has parsed nothing returns false at once
    s.goto t (if seen = 0 then .out else if s.job.doneStage1 then .copy seen else .raise seen)
  | .raise seen => { s with job := { s.job with doneStage1 := true } }.goto t (.copy seen)
  | .copy seen => (s.call e (.process t)).goto t (.add seen (updatedBy e.d s.node.mem t))
  | .add seen updated =>
    { s with job := { s.job with bytesUpdated := u64 (s.job.bytesUpdated+updated) } }.goto t
      (.count seen updated)
  | .count seen updated =>
    -- whoever makes the count complete executes the block
    { s with job := { s.job with bytesSeen := u64 (s.job.bytesSeen+seen) } }.goto t
      (if u64 (seen+s.job.bytesSeen) = e.d.offsetLogEnd then .finish updated else .last)
  | .finish updated => (s.complete e t updated).goto t .close
  | .close => { s with job := { s.job with doneStage2 := true } }.goto t .last
  | .last =>
    { s with returned := if s.job.doneStage2 then t :: s.returned else s.returned }.goto t .out

end CoopState

/-- The threads `T` on a job that was just put on the list. -/
def coopSystem (e : CoopEnv) (T : Finset ℕ) (n₀ : OwnerNode) : System CoopState ℕ where
  init s := ∃ b, s = { node := n₀, extEnqueue := b }
  pre _ t := t ∈ T
  next s t := s.step e t

/-- The thread is about to fetch and add `offset`. -/
def JobPc.claiming : JobPc → Bool
  | .claim _ => true
  | _ => false

/-- The fetch-and-add does not make `offset` wrap. -/
def NoWrap (e : CoopEnv) (s : CoopState) (t : ℕ) : Prop :=
  (s.pc t).claiming = true → s.job.offset+e.jobBytes < 2^64

/-- The call parses the chunk that holds offset `x` of the area. -/
def SyncEvent.parses (x : ℕ) : SyncEvent → Bool
  | .parse _ o n => o ≤ x ∧ x < o+n
  | .process _ => false

/-- The calls copy line `l`: whatever the RW copy holds, the RO copy ends up with it. -/
def CopiesLine (d : AreaDesc) (isLocal : Bool) (m : NodeMem) (evs : List SyncEvent) (l : ℕ) :
    Prop :=
  ∀ rw x, x/64 = l → (syncEvents d isLocal { m with rw } evs).ro x = rw x

/-- Nobody asks for another state of the daemon's slot. -/
theorem daemon_stateReq {s : SlotState} (h : slotSystem.Reachable s) :
    (s.table.tdata 0).stateReq = .running ∨ (s.table.tdata 0).stateReq = .invalid := by
  apply h.invariant (P := fun s => (s.table.tdata 0).stateReq = .running ∨
    (s.table.tdata 0).stateReq = .invalid)
  · rintro s ⟨pid, -, rfl⟩
    exact Or.inl rfl
  · intro s a hs ha
    cases a with
    | initThread p mem =>
      -- a slot that is handed out starts without a request, slot 0 too
      simp only [slotSystem, SlotState.next, ThreadTable.tasvirInitThread]
      cases s.table.freeSlot with
      | none => exact hs
      | some idx =>
        simp only [Function.update_apply]
        split_ifs
        · exact Or.inr rfl
        · exact hs
    | initFinish p i =>
      simp only [slotSystem, SlotState.next, ThreadTable.tasvirInitFinish]
      by_cases hb : (s.table.tdata (s.table.threads i).idx).state ≠ .booting
      · rw [if_pos hb]
        exact hs
      · rw [if_neg hb]
        simp only [Function.update_apply]
        split_ifs
        · exact Or.inl rfl
        · exact hs
    | activate p i active =>
      -- the daemon never asks to sleep
      obtain ⟨-, -, -, hi⟩ := ha
      simp only [slotSystem, SlotState.next, ThreadTable.tasvirActivate,
        Function.update_of_ne (Ne.symm hi)]
      exact hs
    | handOver i =>
      simp only [slotSystem, SlotState.next, ThreadTable.handOver]
      split_ifs
      · simp only [Function.update_apply]
        split_ifs with h0
        · rw [← h0]
          exact hs
        · exact hs
      · exact hs
    | killEnd i idx =>
      simp only [slotSystem, SlotState.next, SlotState.kill, SlotState.setProc,
        ThreadTable.clearThread, Function.update_apply]
      split_ifs
      · exact Or.inr rfl
      · exact hs
    | start | exit | askThread | takeThread | askFinish | finished | killBegin => exact hs

/-- `tasvir_service` calls `tasvir_sched_sync_internal` only while the daemon's
own slot is running, and the first thread that is counted is the daemon. -/
theorem one_le_schedScan {s : SlotState} (h : slotSystem.Reachable s)
    (hrun : (s.table.tdata 0).state = .running) (gone : ℕ → Bool)
    (kill : ThreadTable → ℕ → ThreadTable) (hgone : gone 0 = false) :
    1 ≤ (schedScan gone kill (List.range nrThreadsLocal) s.table).2 := by
  have hkeep : s.table.handOver 0 = s.table := by
    apply if_neg
    rcases daemon_stateReq h with hr | hr
    · simp [hr, hrun]
    · simp [hr]
  have hrange : List.range nrThreadsLocal = 0 :: (List.range 63).map Nat.succ :=
    List.range_succ_eq_map
  rw [hrange, schedScan, hkeep]
  simp [hrun, hgone]

theorem jobBytes_aligned (areas : List AreaDesc) (n : ℕ) : alignment ∣ jobBytes areas n := by
  have htotal : areas.foldl (fun b d => u64 (b+d.offsetLogEnd)) 0 < 2^64 := by
    induction areas using List.reverseRecOn with
    | nil => norm_num
    | append_singleton as d _ =>
      rw [List.foldl_concat, u64]
      exact Nat.mod_lt _ (by norm_num)
  have hmask : 2^64-1-(alignment-1) = 2^64-2^15 := by norm_num [alignment]
  rw [jobBytes, hmask, and_high_mask _ 15 (by norm_num)
    (lt_of_le_of_lt (Nat.div_le_self _ _) htotal)]
  rcases max_choice
    (areas.foldl (fun b d => u64 (b+d.offsetLogEnd)) 0/u64 (n*8)/2^15*2^15) (alignment*4) with h | h
  · rw [h]
    exact Nat.dvd_mul_left _ _
  · rw [h]
    exact Nat.dvd_mul_right _ _

theorem jobBytes_pos (areas : List AreaDesc) (n : ℕ) : 0 < jobBytes areas n :=
  lt_of_lt_of_le (by norm_num [alignment]) (le_max_right _ (alignment*4))

/-- Bytes a thread has claimed and not yet added to `bytes_seen`. -/
def JobPc.pending : JobPc → ℕ
  | .loop seen | .claim seen | .left seen | .raise seen | .copy seen => seen
  | .add seen _ | .count seen _ => seen
  | .parse seen _ len => seen+len
  | _ => 0

/-- One if the thread is about to parse the chunk that holds offset `x`. -/
def JobPc.parsing (x : ℕ) : JobPc → ℕ
  | .parse _ o n => if o ≤ x ∧ x < o+n then 1 else 0
  | _ => 0

/-- Bytes a thread has copied and not yet added to `bytes_updated`. -/
def JobPc.held : JobPc → ℕ
  | .add _ updated => updated
  | _ => 0

/-- One if the thread is about to execute the completion block. -/
def JobPc.finishing : JobPc → ℕ
  | .finish _ => 1
  | _ => 0

/-- The thread has parsed chunks that it has not closed yet. -/
def JobPc.Unflushed : JobPc → Prop
  | .loop seen | .claim seen | .left seen | .raise seen | .copy seen => 0 < seen
  | .parse seen _ _ => 0 < seen
  | _ => False

/-- What is known of a thread, from where it is. -/
def JobPc.Ok (e : CoopEnv) (n₀ : OwnerNode) (s : CoopState) : JobPc → Prop
  | .parse _ o n => e.jobBytes ∣ o ∧ o < e.d.offsetLogEnd ∧ n = min e.jobBytes (e.d.offsetLogEnd-o)
  | .left _ => e.d.offsetLogEnd ≤ s.job.offset
  | .raise seen | .copy seen => 0 < seen ∧ e.d.offsetLogEnd ≤ s.job.offset
  | .add seen updated | .count seen updated =>
    0 < seen ∧ updated ∈ syncUpdated e.d e.isLocal n₀.mem s.evs
  | .finish updated => updated ∈ syncUpdated e.d e.isLocal n₀.mem s.evs
  | .close => s.finals ≠ []
  | _ => True

/-- The node after the completion block. -/
def CoopEnv.closed (e : CoopEnv) (n : OwnerNode) (changes : Bool) : OwnerNode :=
  if changes then
    if e.isLocal then n.publish e.d e.timeUs else { n with sleeping := false }
  else n

/-- The invariant of a job as long as `offset` does not wrap. -/
structure CoopInv (e : CoopEnv) (T : Finset ℕ) (n₀ : OwnerNode) (s : CoopState) : Prop where
  outside : ∀ t ∉ T, s.pc t = .out
  ok : ∀ t, (s.pc t).Ok e n₀ s
  offset_dvd : e.jobBytes ∣ s.job.offset
  /-- claimed bytes are counted, or some thread still has to count them -/
  bytes : ∑ t ∈ T, (s.pc t).pending+s.job.bytesSeen = min s.job.offset e.d.offsetLogEnd
  /-- what lies below `offset` was parsed or is claimed by one thread -/
  once : ∀ x < e.d.offsetLogEnd, s.evs.countP (SyncEvent.parses x)+
    ∑ t ∈ T, (s.pc t).parsing x = if x < s.job.offset then 1 else 0
  chunks : ∀ t o n, .parse t o n ∈ s.evs → e.jobBytes ∣ o ∧ o < e.d.offsetLogEnd ∧
    n = min e.jobBytes (e.d.offsetLogEnd-o)
  flushed : ∀ p t o n q, s.evs = p ++ .parse t o n :: q → .process t ∈ q ∨ (s.pc t).Unflushed
  stage1 : s.job.doneStage1 = true → e.d.offsetLogEnd ≤ s.job.offset
  /-- only the thread that counts the last bytes finishes -/
  finals : s.finals.length+∑ t ∈ T, (s.pc t).finishing =
    if s.job.bytesSeen = e.d.offsetLogEnd then 1 else 0
  stage2 : s.job.doneStage2 = true → s.finals ≠ []
  returned : s.returned ≠ [] → s.finals ≠ []
  updated_lt : s.job.bytesUpdated < 2^64
  updated : u64 (s.job.bytesUpdated+∑ t ∈ T, (s.pc t).held) =
    u64 (syncUpdated e.d e.isLocal n₀.mem s.evs).sum
  open_node : s.finals = [] →
    s.node = { n₀ with mem := syncEvents e.d e.isLocal n₀.mem s.evs }
  closed_node : s.finals ≠ [] → ∃ u ∈ syncUpdated e.d e.isLocal n₀.mem s.evs,
    s.node = e.closed { n₀ with mem := syncEvents e.d e.isLocal n₀.mem s.evs }
      (u != 0 || u64 (syncUpdated e.d e.isLocal n₀.mem s.evs).sum != 0)

theorem sum_goto {T : Finset ℕ} {t : ℕ} (ht : t ∈ T) (f : JobPc → ℕ) (pc : ℕ → JobPc)
    (p : JobPc) :
    ∑ u ∈ T, f (Function.update pc t p u)+f (pc t) = ∑ u ∈ T, f (pc u)+f p := by
  have hrest : ∑ u ∈ T.erase t, f (Function.update pc t p u) = ∑ u ∈ T.erase t, f (pc u) := by
    apply Finset.sum_congr rfl
    intro u hu
    rw [Function.update_of_ne (Finset.ne_of_mem_erase hu)]
  rw [← Finset.add_sum_erase T _ ht, ← Finset.add_sum_erase T (fun u => f (pc u)) ht, hrest,
    Function.update_self]
  omega

/-- A step that leaves the counts of the thread as they are. -/
theorem sum_goto_same {T : Finset ℕ} {t : ℕ} (ht : t ∈ T) (f : JobPc → ℕ) {pc : ℕ → JobPc}
    {p : JobPc} (h : f p = f (pc t)) :
    ∑ u ∈ T, f (Function.update pc t p u) = ∑ u ∈ T, f (pc u) := by
  have := sum_goto ht f pc p
  omega

section
variable {e : CoopEnv} {T : Finset ℕ} {n₀ : OwnerNode} {s : CoopState} {t : ℕ}

/-- An `Ok` only needs the counters to grow and the calls to go on. -/
theorem JobPc.Ok.mono {s' : CoopState} {p : JobPc} (h : p.Ok e n₀ s)
    (hoff : e.d.offsetLogEnd ≤ s.job.offset → e.d.offsetLogEnd ≤ s'.job.offset)
    (hupd : ∀ u ∈ syncUpdated e.d e.isLocal n₀.mem s.evs,
      u ∈ syncUpdated e.d e.isLocal n₀.mem s'.evs)
    (hfin : s.finals ≠ [] → s'.finals ≠ []) : p.Ok e n₀ s' := by
  cases p with
  | out | start | loop | claim | last => trivial
  | parse => exact h
  | left => exact hoff h
  | raise | copy => exact ⟨h.1, hoff h.2⟩
  | add | count => exact ⟨h.1, hupd _ h.2⟩
  | finish => exact hupd _ h
  | close => exact hfin h

theorem CoopInv.outside_goto (h : CoopInv e T n₀ s) (ht : t ∈ T) (p : JobPc) :
    ∀ u ∉ T, Function.update s.pc t p u = .out := by
  intro u hu
  have hne : u ≠ t := fun he => hu (he ▸ ht)
  rw [Function.update_of_ne hne]
  exact h.outside u hu

theorem CoopInv.ok_goto (h : CoopInv e T n₀ s) {s' : CoopState} {p : JobPc} (hok : p.Ok e n₀ s')
    (hoff : e.d.offsetLogEnd ≤ s.job.offset → e.d.offsetLogEnd ≤ s'.job.offset)
    (hupd : ∀ u ∈ syncUpdated e.d e.isLocal n₀.mem s.evs,
      u ∈ syncUpdated e.d e.isLocal n₀.mem s'.evs)
    (hfin : s.finals ≠ [] → s'.finals ≠ []) (u : ℕ) :
    (Function.update s.pc t p u).Ok e n₀ s' := by
  rw [Function.update_apply]
  split_ifs
  · exact hok
  · exact (h.ok u).mono hoff hupd hfin

theorem CoopInv.flushed_goto (h : CoopInv e T n₀ s) {p : JobPc}
    (hun : (s.pc t).Unflushed → p.Unflushed) (a : List SyncEvent) (u o n : ℕ) (b : List SyncEvent)
    (hev : s.evs = a ++ .parse u o n :: b) :
    .process u ∈ b ∨ (Function.update s.pc t p u).Unflushed := by
  apply (h.flushed a u o n b hev).imp_right
  intro hf
  rw [Function.update_apply]
  split_ifs with hu
  · exact hun (hu ▸ hf)
  · exact hf

/-- A thread moves on and nothing that others rely on changes. -/
theorem CoopInv.goto (h : CoopInv e T n₀ s) (ht : t ∈ T) (p : JobPc)
    (hpend : p.pending = (s.pc t).pending) (hpars : ∀ x, p.parsing x = (s.pc t).parsing x)
    (hheld : p.held = (s.pc t).held) (hfin : p.finishing = (s.pc t).finishing)
    (hok : p.Ok e n₀ s) (hun : (s.pc t).Unflushed → p.Unflushed) :
    CoopInv e T n₀ (s.goto t p) := by
  refine { h with
    outside := h.outside_goto ht p, ok := h.ok_goto hok id (fun _ h => h) id
    bytes := ?_, once := ?_, flushed := h.flushed_goto hun, finals := ?_, updated := ?_ }
  · simp only [CoopState.goto, sum_goto_same ht JobPc.pending hpend]
    exact h.bytes
  · intro x hx
    simp only [CoopState.goto, sum_goto_same ht (JobPc.parsing x) (hpars x)]
    exact h.once x hx
  · simp only [CoopState.goto, sum_goto_same ht JobPc.finishing hfin]
    exact h.finals
  · simp only [CoopState.goto, sum_goto_same ht JobPc.held hheld]
    exact h.updated

/-- The bytes a thread has parsed, where it neither holds a chunk nor has closed its part. -/
def JobPc.walked : JobPc → Option ℕ
  | .loop seen | .claim seen | .left seen | .raise seen | .copy seen => some seen
  | .out | .start | .close | .last => some 0
  | _ => none

theorem JobPc.walked_spec {p : JobPc} {seen : ℕ} (h : p.walked = some seen) :
    p.pending = seen ∧ (∀ x, p.parsing x = 0) ∧ p.held = 0 ∧ p.finishing = 0 ∧
    (p.Unflushed ↔ 0 < seen) := by
  cases p <;> simp_all [JobPc.walked, JobPc.pending, JobPc.parsing, JobPc.held, JobPc.finishing,
    JobPc.Unflushed]

/-- A step between two places where the thread has parsed the same bytes. -/
theorem CoopInv.walk (h : CoopInv e T n₀ s) (ht : t ∈ T) {p : JobPc} {seen : ℕ}
    (hq : (s.pc t).walked = some seen) (hp : p.walked = some seen) (hok : p.Ok e n₀ s) :
    CoopInv e T n₀ (s.goto t p) := by
  obtain ⟨h1, h2, h3, h4, h5⟩ := JobPc.walked_spec hq
  obtain ⟨g1, g2, g3, g4, g5⟩ := JobPc.walked_spec hp
  apply h.goto ht p
  · rw [g1, h1]
  · intro x
    rw [g2, h2]
  · rw [g3, h3]
  · rw [g4, h4]
  · exact hok
  · intro hun
    exact g5.mpr (h5.mp hun)

theorem CoopInv.claim (h : CoopInv e T n₀ s) (ht : t ∈ T) {seen : ℕ} (hpc : s.pc t = .claim seen)
    (hw : s.job.offset+e.jobBytes < 2^64) (hJ : 0 < e.jobBytes) :
    CoopInv e T n₀ (s.step e t) := by
  have hstep : s.step e t = { s with
      job := { s.job with offset := s.job.offset+e.jobBytes } }.goto t
      (if s.job.offset < e.d.offsetLogEnd then
        .parse seen s.job.offset (min e.jobBytes (e.d.offsetLogEnd-s.job.offset))
      else .left seen) := by
    simp only [CoopState.step, hpc, u64, Nat.mod_eq_of_lt hw]
  -- `offset` moves first; the thread takes the chunk in front of it
  have hb := h.bytes
  have hsum (f : JobPc → ℕ) (p : JobPc) := sum_goto ht f s.pc p
  rw [hstep]
  obtain ⟨p, hp⟩ : ∃ p, p = (if s.job.offset < e.d.offsetLogEnd then
      JobPc.parse seen s.job.offset (min e.jobBytes (e.d.offsetLogEnd-s.job.offset))
      else .left seen) := ⟨_, rfl⟩
  rw [← hp]
  have hcases : (s.job.offset < e.d.offsetLogEnd ∧
      p = .parse seen s.job.offset (min e.jobBytes (e.d.offsetLogEnd-s.job.offset))) ∨
      (e.d.offsetLogEnd ≤ s.job.offset ∧ p = .left seen) := by
    by_cases hlt : s.job.offset < e.d.offsetLogEnd
    · exact Or.inl ⟨hlt, by rw [hp, if_pos hlt]⟩
    · exact Or.inr ⟨by omega, by rw [hp, if_neg hlt]⟩
  have hheld : p.held = (s.pc t).held := by
    rw [hpc]
    rcases hcases with ⟨-, rfl⟩ | ⟨-, rfl⟩ <;> rfl
  have hfin : p.finishing = (s.pc t).finishing := by
    rw [hpc]
    rcases hcases with ⟨-, rfl⟩ | ⟨-, rfl⟩ <;> rfl
  refine { h with
    outside := h.outside_goto ht p, ok := h.ok_goto ?_ ?_ (fun _ h => h) id, offset_dvd := ?_
    bytes := ?_, once := ?_, flushed := h.flushed_goto ?_, stage1 := ?_, finals := ?_
    updated := ?_ }
  · rcases hcases with ⟨hlt, rfl⟩ | ⟨hge, rfl⟩
    · exact ⟨h.offset_dvd, hlt, rfl⟩
    · exact le_trans hge (Nat.le_add_right _ _)
  · exact fun hle => le_trans hle (Nat.le_add_right _ _)
  · exact Nat.dvd_add h.offset_dvd (Nat.dvd_refl _)
  · have hs := hsum JobPc.pending p
    simp only [CoopState.goto]
    rw [hpc] at hs
    change _+seen = _ at hs
    rcases hcases with ⟨hlt, rfl⟩ | ⟨hge, rfl⟩
    · change _ = _+(seen+min e.jobBytes (e.d.offsetLogEnd-s.job.offset)) at hs
      omega
    · change _ = _+seen at hs
      omega
  · intro x hx
    have hs := hsum (JobPc.parsing x) p
    have ho := h.once x hx
    change s.evs.countP (SyncEvent.parses x)+∑ u ∈ T, (Function.update s.pc t p u).parsing x =
      if x < s.job.offset+e.jobBytes then 1 else 0
    rw [hpc] at hs
    change _+0 = _ at hs
    rcases hcases with ⟨hlt, rfl⟩ | ⟨hge, rfl⟩
    · change _ = _+(if s.job.offset ≤ x ∧
        x < s.job.offset+min e.jobBytes (e.d.offsetLogEnd-s.job.offset) then 1 else 0) at hs
      by_cases hold : x < s.job.offset
      · rw [if_pos hold] at ho
        rw [if_neg (by omega)] at hs
        rw [if_pos (by omega)]
        omega
      · rw [if_neg hold] at ho
        by_cases hnew : x < s.job.offset+e.jobBytes
        · rw [if_pos (by omega)] at hs
          rw [if_pos hnew]
          omega
        · rw [if_neg (by omega)] at hs
          rw [if_neg hnew]
          omega
    · change _ = _+0 at hs
      rw [if_pos (by omega)] at ho
      rw [if_pos (by omega)]
      omega
  · rw [hpc]
    rcases hcases with ⟨-, rfl⟩ | ⟨-, rfl⟩ <;> exact id
  · intro hd
    exact le_trans (h.stage1 hd) (Nat.le_add_right _ _)
  · simp only [CoopState.goto, sum_goto_same ht JobPc.finishing hfin]
    exact h.finals
  · simp only [CoopState.goto, sum_goto_same ht JobPc.held hheld]
    exact h.updated

theorem syncUpdated_append (d : AreaDesc) (isLocal : Bool) (m : NodeMem) (a b : List SyncEvent) :
    syncUpdated d isLocal m (a ++ b) =
      syncUpdated d isLocal m a ++ syncUpdated d isLocal (syncEvents d isLocal m a) b := by
  induction a generalizing m with
  | nil => rfl
  | cons ev a ih =>
    cases ev with
    | parse t o n => exact ih _
    | process t => exact congrArg _ (ih _)

theorem syncEvents_append (d : AreaDesc) (isLocal : Bool) (m : NodeMem) (a b : List SyncEvent) :
    syncEvents d isLocal m (a ++ b) = syncEvents d isLocal (syncEvents d isLocal m a) b :=
  List.foldl_append

/-- Once the completion block was reached, no thread has bytes to count. -/
theorem CoopInv.pending_zero (h : CoopInv e T n₀ s) (hseen : s.job.bytesSeen = e.d.offsetLogEnd)
    (t : ℕ) : (s.pc t).pending = 0 := by
  by_cases ht : t ∈ T
  · have hb := h.bytes
    have hz : ∑ t ∈ T, (s.pc t).pending = 0 := by omega
    exact Finset.sum_eq_zero_iff.mp hz t ht
  · rw [h.outside t ht]
    rfl

theorem CoopInv.bytesSeen_of_finals (h : CoopInv e T n₀ s) (hf : s.finals ≠ []) :
    s.job.bytesSeen = e.d.offsetLogEnd := by
  by_contra hne
  have hfin := h.finals
  rw [if_neg hne] at hfin
  exact hf (List.length_eq_zero_iff.mp (by omega))

/-- A thread that has something to count keeps the block from being executed. -/
theorem CoopInv.finals_nil (h : CoopInv e T n₀ s) (hpos : 0 < (s.pc t).pending) :
    s.finals = [] := by
  by_contra hf
  have := h.pending_zero (h.bytesSeen_of_finals hf) t
  omega

/-- The two kinds of calls, which only make the history longer. -/
theorem CoopInv.called (h : CoopInv e T n₀ s) (ht : t ∈ T) (ev : SyncEvent) (p : JobPc)
    (hnil : s.finals = []) (hpend : p.pending = (s.pc t).pending)
    (hpars : ∀ x, p.parsing x+(if ev.parses x then 1 else 0) = (s.pc t).parsing x)
    (hfin : p.finishing = (s.pc t).finishing)
    (hheld : p.held+(syncUpdated e.d e.isLocal n₀.mem s.evs).sum =
      (s.pc t).held+(syncUpdated e.d e.isLocal n₀.mem (s.evs ++ [ev])).sum)
    (hok : p.Ok e n₀ (s.call e ev))
    (hchunk : ∀ u o n, ev = .parse u o n → e.jobBytes ∣ o ∧ o < e.d.offsetLogEnd ∧
      n = min e.jobBytes (e.d.offsetLogEnd-o))
    (hflush : ∀ u o n, ev = .parse u o n → u = t ∧ p.Unflushed)
    (hproc : (s.pc t).Unflushed → p.Unflushed ∨ ev = .process t) :
    CoopInv e T n₀ ((s.call e ev).goto t p) := by
  have hnode := h.open_node hnil
  refine { h with
    outside := h.outside_goto ht p, ok := h.ok_goto hok id ?_ id, bytes := ?_, once := ?_, chunks := ?_, flushed := ?_, finals := ?_
    updated := ?_, open_node := ?_, closed_node := ?_ }
  · intro v hv
    simp only [CoopState.goto, CoopState.call, syncUpdated_append]
    exact List.mem_append_left _ hv
  · simp only [CoopState.goto, CoopState.call, sum_goto_same ht JobPc.pending hpend]
    exact h.bytes
  · intro x hx
    have hs := sum_goto ht (JobPc.parsing x) s.pc p
    have ho := h.once x hx
    have hx' := hpars x
    change (s.evs ++ [ev]).countP (SyncEvent.parses x)+
      ∑ u ∈ T, (Function.update s.pc t p u).parsing x = if x < s.job.offset then 1 else 0
    rw [← ho, List.countP_append, List.countP_singleton]
    omega
  · intro u o n hx
    rcases List.mem_append.mp hx with hx | hx
    · exact h.chunks u o n hx
    · exact hchunk u o n (List.mem_singleton.mp hx).symm
  · intro p' u o n q he
    have hev : s.evs ++ [ev] = p' ++ .parse u o n :: q := he
    change _ ∨ (Function.update s.pc t p u).Unflushed
    rcases List.eq_nil_or_concat q with hq | ⟨q', x, hq⟩
    · -- the new call is the chunk itself
      rw [hq] at hev
      obtain ⟨hut, hp⟩ := hflush u o n (List.singleton_inj.mp (List.append_inj' hev rfl).2)
      rw [hut, Function.update_self]
      exact Or.inr hp
    · rw [hq, List.concat_eq_append, ← List.cons_append, ← List.append_assoc] at hev
      obtain ⟨hpre, hlast⟩ := List.append_inj' hev rfl
      rw [hq, List.concat_eq_append, ← List.singleton_inj.mp hlast]
      rcases h.flushed p' u o n q' hpre with hf | hf
      · exact Or.inl (List.mem_append_left _ hf)
      · by_cases hu : u = t
        · rw [hu] at hf ⊢
          rw [Function.update_self]
          rcases hproc hf with hp | hp
          · exact Or.inr hp
          · exact Or.inl (List.mem_append_right _ (List.mem_singleton.mpr hp.symm))
        · rw [Function.update_of_ne hu]
          exact Or.inr hf
  · simp only [CoopState.goto, CoopState.call, sum_goto_same ht JobPc.finishing hfin]
    exact h.finals
  · have hs := sum_goto ht JobPc.held s.pc p
    have hu := h.updated
    simp only [CoopState.goto, CoopState.call, u64] at hu ⊢
    omega
  · intro _
    simp only [CoopState.goto, CoopState.call, hnode, syncEvents_append]
    rfl
  · intro hne
    exact absurd hnil hne

theorem CoopInv.parse (h : CoopInv e T n₀ s) (ht : t ∈ T) {seen o n : ℕ}
    (hpc : s.pc t = .parse seen o n) (hJ : 0 < e.jobBytes) : CoopInv e T n₀ (s.step e t) := by
  have hstep : s.step e t = (s.call e (.parse t o n)).goto t (.loop (seen+n)) := by
    simp only [CoopState.step, hpc]
  have hok := h.ok t
  rw [hpc] at hok
  obtain ⟨h1, h2, h3⟩ := hok
  have hn : 0 < n := by omega
  rw [hstep]
  apply h.called ht
  · exact h.finals_nil (t := t) (by rw [hpc]; exact lt_of_lt_of_le hn (Nat.le_add_left _ _))
  · rw [hpc]
    rfl
  · intro x
    rw [hpc]
    simp only [JobPc.parsing, SyncEvent.parses, decide_eq_true_eq, Nat.zero_add]
  · rw [hpc]
    rfl
  · rw [hpc, syncUpdated_append]
    simp only [JobPc.held, syncUpdated, List.append_nil]
  · trivial
  · intro u o' n' he
    obtain ⟨-, rfl, rfl⟩ := SyncEvent.parse.inj he
    exact ⟨h1, h2, h3⟩
  · intro u o' n' he
    exact ⟨(SyncEvent.parse.inj he).1.symm, lt_of_lt_of_le hn (Nat.le_add_left _ _)⟩
  · intro _
    exact Or.inl (lt_of_lt_of_le hn (Nat.le_add_left _ _))

theorem CoopInv.copy (h : CoopInv e T n₀ s) (ht : t ∈ T) {seen : ℕ}
    (hpc : s.pc t = .copy seen) : CoopInv e T n₀ (s.step e t) := by
  have hstep : s.step e t =
      (s.call e (.process t)).goto t (.add seen (updatedBy e.d s.node.mem t)) := by
    simp only [CoopState.step, hpc]
  have hok := h.ok t
  rw [hpc] at hok
  have hnil : s.finals = [] := h.finals_nil (t := t) (by rw [hpc]; exact hok.1)
  have hupd : syncUpdated e.d e.isLocal n₀.mem (s.evs ++ [.process t]) =
      syncUpdated e.d e.isLocal n₀.mem s.evs ++ [updatedBy e.d s.node.mem t] := by
    rw [syncUpdated_append, h.open_node hnil]
    rfl
  rw [hstep]
  apply h.called ht
  · exact hnil
  · rw [hpc]
    rfl
  · intro x
    rw [hpc]
    rfl
  · rw [hpc]
    rfl
  · rw [hpc, hupd, List.sum_append, List.sum_singleton]
    simp only [JobPc.held]
    omega
  · refine ⟨hok.1, ?_⟩
    simp only [CoopState.call, hupd]
    exact List.mem_append_right _ (List.mem_singleton.mpr rfl)
  · intro u o n he
    exact SyncEvent.noConfusion he
  · intro u o n he
    exact SyncEvent.noConfusion he
  · intro _
    exact Or.inr rfl

theorem CoopInv.add (h : CoopInv e T n₀ s) (ht : t ∈ T) {seen updated : ℕ}
    (hpc : s.pc t = .add seen updated) : CoopInv e T n₀ (s.step e t) := by
  have hstep : s.step e t = { s with
      job := { s.job with bytesUpdated := u64 (s.job.bytesUpdated+updated) } }.goto t
      (.count seen updated) := by
    simp only [CoopState.step, hpc]
  have hok := h.ok t
  rw [hpc] at hok
  have hs := sum_goto ht JobPc.held s.pc (.count seen updated)
  rw [hpc] at hs
  change _+updated = _+0 at hs
  rw [hstep]
  refine { h with
    outside := h.outside_goto ht _, ok := h.ok_goto hok id (fun _ h => h) id, bytes := ?_, once := ?_
    flushed := h.flushed_goto (by rw [hpc]; exact id), finals := ?_
    updated_lt := Nat.mod_lt _ (by norm_num), updated := ?_ }
  · simp only [CoopState.goto]
    rw [sum_goto_same ht JobPc.pending (by rw [hpc]; rfl)]
    exact h.bytes
  · intro x hx
    simp only [CoopState.goto]
    rw [sum_goto_same ht (JobPc.parsing x) (by rw [hpc]; rfl)]
    exact h.once x hx
  · simp only [CoopState.goto]
    rw [sum_goto_same ht JobPc.finishing (by rw [hpc]; rfl)]
    exact h.finals
  · have hu := h.updated
    simp only [CoopState.goto, u64] at hu ⊢
    omega

theorem CoopInv.count (h : CoopInv e T n₀ s) (ht : t ∈ T) {seen updated : ℕ}
    (hpc : s.pc t = .count seen updated) (hend : e.d.offsetLogEnd < 2^64) :
    CoopInv e T n₀ (s.step e t) := by
  have hok := h.ok t
  rw [hpc] at hok
  obtain ⟨hseen, hmem⟩ := hok
  have hb := h.bytes
  have hle : (s.pc t).pending ≤ ∑ u ∈ T, (s.pc u).pending :=
    Finset.single_le_sum (f := fun u => (s.pc u).pending) (fun _ _ => Nat.zero_le _) ht
  rw [hpc] at hle
  change seen ≤ _ at hle
  have hmod : u64 (s.job.bytesSeen+seen) = s.job.bytesSeen+seen := Nat.mod_eq_of_lt (by omega)
  obtain ⟨p, hp⟩ : ∃ p, p = if s.job.bytesSeen+seen = e.d.offsetLogEnd then JobPc.finish updated
      else .last := ⟨_, rfl⟩
  have hstep : s.step e t =
      { s with job := { s.job with bytesSeen := s.job.bytesSeen+seen } }.goto t p := by
    simp only [CoopState.step, hpc, Nat.add_comm seen, hmod, hp]
  -- both outcomes leave nothing to count
  have hpend : p.pending = 0 := by
    rw [hp]
    split_ifs <;> rfl
  have hheld : p.held = 0 := by
    rw [hp]
    split_ifs <;> rfl
  have hpars : ∀ x, p.parsing x = 0 := by
    intro x
    rw [hp]
    split_ifs <;> rfl
  rw [hstep]
  refine { h with
    outside := h.outside_goto ht p, ok := h.ok_goto ?_ id (fun _ h => h) id, bytes := ?_, once := ?_
    flushed := h.flushed_goto (by rw [hpc]; exact False.elim), finals := ?_, updated := ?_ }
  · rw [hp]
    split_ifs
    · exact hmem
    · trivial
  · have hs := sum_goto ht JobPc.pending s.pc p
    rw [hpc, hpend] at hs
    change _+seen = _ at hs
    simp only [CoopState.goto]
    omega
  · intro x hx
    simp only [CoopState.goto]
    rw [sum_goto_same ht (JobPc.parsing x) (by rw [hpc, hpars]; rfl)]
    exact h.once x hx
  · have hs := sum_goto ht JobPc.finishing s.pc p
    have hf := h.finals
    rw [hpc] at hs
    change _+0 = _ at hs
    rw [if_neg (by omega)] at hf
    change s.finals.length+∑ u ∈ T, (Function.update s.pc t p u).finishing =
      if s.job.bytesSeen+seen = e.d.offsetLogEnd then 1 else 0
    by_cases hall : s.job.bytesSeen+seen = e.d.offsetLogEnd
    · have hone : p.finishing = 1 := by
        rw [hp, if_pos hall]
        rfl
      rw [if_pos hall]
      omega
    · have hzero : p.finishing = 0 := by
        rw [hp, if_neg hall]
        rfl
      rw [if_neg hall]
      omega
  · simp only [CoopState.goto]
    rw [sum_goto_same ht JobPc.held (by rw [hpc, hheld]; rfl)]
    exact h.updated

theorem CoopState.complete_frame (updated : ℕ) :
    (s.complete e t updated).node =
      e.closed s.node (updated != 0 || s.job.bytesUpdated != 0) ∧
    (s.complete e t updated).finals = t :: s.finals ∧ (s.complete e t updated).pc = s.pc ∧
    (s.complete e t updated).evs = s.evs ∧ (s.complete e t updated).returned = s.returned ∧
    ∃ b, (s.complete e t updated).job = { s.job with doneStage3 := b } := by
  by_cases hc : updated ≠ 0 ∨ s.job.bytesUpdated ≠ 0
  · have hb : (updated != 0 || s.job.bytesUpdated != 0) = true := by simpa using hc
    cases hl : e.isLocal
    · simp only [CoopState.complete, CoopEnv.closed, hc, hb, hl, ↓reduceIte, Bool.false_eq_true, true_and]
      exact ⟨_, rfl⟩
    · simp only [CoopState.complete, CoopEnv.closed, hc, hb, hl, ↓reduceIte, true_and]
      exact ⟨_, rfl⟩
  · have hb : (updated != 0 || s.job.bytesUpdated != 0) = false := by simpa using hc
    simp only [CoopState.complete, CoopEnv.closed, hc, hb, ↓reduceIte, Bool.false_eq_true, true_and]
    exact ⟨_, rfl⟩

/-- When the block is reached, every count has been added. -/
theorem CoopInv.held_zero (h : CoopInv e T n₀ s) (hseen : s.job.bytesSeen = e.d.offsetLogEnd) :
    ∑ t ∈ T, (s.pc t).held = 0 := by
  apply Finset.sum_eq_zero
  intro t _
  have hz := h.pending_zero hseen t
  have hok := h.ok t
  cases hpc : s.pc t with
  | add seen updated =>
    rw [hpc] at hz hok
    have hpos := hok.1
    simp only [JobPc.pending] at hz
    omega
  | _ => rfl

theorem CoopInv.finishing_pos (h : CoopInv e T n₀ s) {updated : ℕ}
    (hpc : s.pc t = .finish updated) : 1 ≤ ∑ u ∈ T, (s.pc u).finishing := by
  have ht : t ∈ T := by
    by_contra hout
    rw [h.outside t hout] at hpc
    exact JobPc.noConfusion hpc
  have hle : (s.pc t).finishing ≤ ∑ u ∈ T, (s.pc u).finishing :=
    Finset.single_le_sum (f := fun u => (s.pc u).finishing) (fun _ _ => Nat.zero_le _) ht
  rw [hpc] at hle
  exact hle

/-- The block is reached only when all bytes are counted. -/
theorem CoopInv.bytesSeen_of_finish (h : CoopInv e T n₀ s) {updated : ℕ}
    (hpc : s.pc t = .finish updated) : s.job.bytesSeen = e.d.offsetLogEnd := by
  have hle := h.finishing_pos hpc
  have hf := h.finals
  by_contra hne
  rw [if_neg hne] at hf
  omega

/-- Nobody has executed the block before. -/
theorem CoopInv.finals_nil_of_finish (h : CoopInv e T n₀ s) {updated : ℕ}
    (hpc : s.pc t = .finish updated) : s.finals = [] := by
  have hle := h.finishing_pos hpc
  have hf := h.finals
  rw [if_pos (h.bytesSeen_of_finish hpc)] at hf
  exact List.length_eq_zero_iff.mp (by omega)

theorem CoopInv.finish (h : CoopInv e T n₀ s) (ht : t ∈ T) {updated : ℕ}
    (hpc : s.pc t = .finish updated) : CoopInv e T n₀ (s.step e t) := by
  have hstep : s.step e t = (s.complete e t updated).goto t .close := by
    simp only [CoopState.step, hpc]
  have hok := h.ok t
  rw [hpc] at hok
  have hseen := h.bytesSeen_of_finish hpc
  have hnil := h.finals_nil_of_finish hpc
  have hf := h.finals
  rw [if_pos hseen] at hf
  -- no thread holds a count back, so `updated` has the sum of all
  have hupd := h.updated
  rw [h.held_zero hseen, Nat.add_zero, u64, Nat.mod_eq_of_lt h.updated_lt] at hupd
  -- the block changes the node and records itself; the job's counters stay
  obtain ⟨hnode, hfin, hpcs, hevs, hret, b, hjob⟩ :=
    CoopState.complete_frame (e := e) (s := s) (t := t) updated
  rw [hstep]
  generalize s.complete e t updated = s' at *
  obtain ⟨node, ext, job, pc, evs, finals, returned⟩ := s'
  simp only at hnode hfin hpcs hevs hret hjob
  subst hnode hfin hpcs hevs hret hjob
  refine { h with
    outside := h.outside_goto ht _, ok := h.ok_goto ?_ id (fun _ h => h) ?_, bytes := ?_, once := ?_
    flushed := h.flushed_goto (by rw [hpc]; exact id), finals := ?_, stage2 := ?_, returned := ?_
    updated := ?_, open_node := ?_, closed_node := ?_ }
  · exact List.cons_ne_nil _ _
  · exact fun _ => List.cons_ne_nil _ _
  · simp only [CoopState.goto]
    rw [sum_goto_same ht JobPc.pending (by rw [hpc]; rfl)]
    exact h.bytes
  · intro x hx
    simp only [CoopState.goto]
    rw [sum_goto_same ht (JobPc.parsing x) (by rw [hpc]; rfl)]
    exact h.once x hx
  · have hs := sum_goto ht JobPc.finishing s.pc .close
    rw [hpc] at hs
    change _+1 = _+0 at hs
    change s.finals.length+1+∑ u ∈ T, (Function.update s.pc t .close u).finishing =
      if s.job.bytesSeen = e.d.offsetLogEnd then 1 else 0
    rw [if_pos hseen]
    omega
  · exact fun _ => List.cons_ne_nil _ _
  · exact fun _ => List.cons_ne_nil _ _
  · simp only [CoopState.goto]
    rw [sum_goto_same ht JobPc.held (by rw [hpc]; rfl)]
    exact h.updated
  · intro hc
    exact absurd hc (List.cons_ne_nil _ _)
  · intro _
    refine ⟨updated, hok, ?_⟩
    simp only [CoopState.goto, h.open_node hnil, hupd]

theorem CoopInv.step (h : CoopInv e T n₀ s) (ht : t ∈ T) (hw : NoWrap e s t)
    (hJ : 0 < e.jobBytes) (hend : e.d.offsetLogEnd < 2^64) : CoopInv e T n₀ (s.step e t) := by
  have hok := h.ok t
  -- the places with an effect on the job or the node have lemmas of their own
  cases hpc : s.pc t with
  | claim seen => exact h.claim ht hpc (hw (by rw [hpc]; rfl)) hJ
  | parse seen o n => exact h.parse ht hpc hJ
  | copy seen => exact h.copy ht hpc
  | add seen updated => exact h.add ht hpc
  | count seen updated => exact h.count ht hpc hend
  | finish updated => exact h.finish ht hpc
  | out =>
    simp only [CoopState.step, hpc]
    by_cases hd : s.job.doneStage2 = true
    · rw [if_pos hd]
      exact { h with returned := fun _ => h.stage2 hd }
    · rw [if_neg hd]
      split_ifs
      · exact h
      · exact h.walk ht (by rw [hpc]; rfl) rfl trivial
  | start =>
    simp only [CoopState.step, hpc]
    split_ifs
    · exact h.walk ht (by rw [hpc]; rfl) rfl trivial
    · exact h.walk ht (by rw [hpc]; rfl) rfl trivial
  | loop seen =>
    simp only [CoopState.step, hpc]
    by_cases hd : s.job.doneStage1 = true
    · rw [if_pos hd]
      exact h.walk ht (by rw [hpc]; rfl) rfl (h.stage1 hd)
    · rw [if_neg hd]
      exact h.walk ht (by rw [hpc]; rfl) rfl trivial
  | left seen =>
    rw [hpc] at hok
    have hoff : e.d.offsetLogEnd ≤ s.job.offset := hok
    simp only [CoopState.step, hpc]
    by_cases hz : seen = 0
    · rw [if_pos hz]
      exact h.walk ht (by rw [hpc, hz]; rfl) rfl trivial
    · rw [if_neg hz]
      have hpos := Nat.pos_of_ne_zero hz
      split_ifs
      · exact h.walk ht (by rw [hpc]; rfl) rfl ⟨hpos, hoff⟩
      · exact h.walk ht (by rw [hpc]; rfl) rfl ⟨hpos, hoff⟩
  | raise seen =>
    rw [hpc] at hok
    simp only [CoopState.step, hpc]
    have h' : CoopInv e T n₀ { s with job := { s.job with doneStage1 := true } } :=
      { h with stage1 := fun _ => hok.2 }
    exact h'.walk ht (by rw [hpc]; rfl) rfl hok
  | close =>
    rw [hpc] at hok
    have hf : s.finals ≠ [] := hok
    simp only [CoopState.step, hpc]
    have h' : CoopInv e T n₀ { s with job := { s.job with doneStage2 := true } } :=
      { h with stage2 := fun _ => hf }
    exact h'.walk ht (by rw [hpc]; rfl) rfl trivial
  | last =>
    simp only [CoopState.step, hpc]
    have h' : CoopInv e T n₀ { s with
        returned := if s.job.doneStage2 then t :: s.returned else s.returned } := by
      refine { h with returned := ?_ }
      intro hr
      by_cases hd : s.job.doneStage2 = true
      · exact h.stage2 hd
      · apply h.returned
        simpa [hd] using hr
    exact h'.walk ht (by rw [hpc]; rfl) rfl trivial

theorem coopInv_init (e : CoopEnv) (T : Finset ℕ) (n₀ : OwnerNode) (b : Bool)
    (hend : 0 < e.d.offsetLogEnd) : CoopInv e T n₀ { node := n₀, extEnqueue := b } where
  outside _ _ := rfl
  ok _ := trivial
  offset_dvd := Nat.dvd_zero _
  bytes := by simp [JobPc.pending]
  once x _ := by simp [JobPc.parsing]
  chunks t o n h := absurd h List.not_mem_nil
  flushed p t o n q h := by simp at h
  stage1 h := Bool.noConfusion h
  finals := by
    rw [if_neg (by simp only; omega)]
    simp [JobPc.finishing]
  stage2 h := Bool.noConfusion h
  returned h := absurd rfl h
  updated_lt := by norm_num
  updated := by simp [JobPc.held, syncUpdated]
  open_node _ := rfl
  closed_node h := absurd rfl h

theorem coopInv_reachable (hJ : 0 < e.jobBytes) (hpos : 0 < e.d.offsetLogEnd)
    (hend : e.d.offsetLogEnd < 2^64)
    (h : ((coopSystem e T n₀).restrict (NoWrap e)).Reachable s) : CoopInv e T n₀ s := by
  apply h.invariant
  · rintro s ⟨b, rfl⟩
    exact coopInv_init e T n₀ b hpos
  · intro s t hs ht
    exact hs.step ht.1 ht.2 hJ hend

/-- When all bytes are counted, every offset has been parsed by exactly one call. -/
theorem CoopInv.parsed_once (h : CoopInv e T n₀ s) (hJ : 0 < e.jobBytes)
    (hseen : s.job.bytesSeen = e.d.offsetLogEnd) (x : ℕ) (hx : x < e.d.offsetLogEnd) :
    s.evs.countP (SyncEvent.parses x) = 1 := by
  have hb := h.bytes
  have ho := h.once x hx
  have hnone : ∑ t ∈ T, (s.pc t).parsing x = 0 := by
    apply Finset.sum_eq_zero
    intro t _
    have hz := h.pending_zero hseen t
    have hok := h.ok t
    cases hpc : s.pc t with
    | parse seen o n =>
      rw [hpc] at hz hok
      obtain ⟨-, h2, h3⟩ := hok
      simp only [JobPc.pending] at hz
      omega
    | _ => rfl
  rw [hnone, Nat.add_zero] at ho
  rw [ho, if_pos (by omega)]

theorem CoopInv.completes (h : CoopInv e T n₀ s) (hd : e.d.Wf) (hal : alignment ∣ e.jobBytes)
    (hJ : 0 < e.jobBytes) (hseen : s.job.bytesSeen = e.d.offsetLogEnd) : Completes e.d s.evs := by
  have hchunk : ∀ t o n, .parse t o n ∈ s.evs →
      32768 ∣ o ∧ 32768 ∣ n ∧ o+n ≤ e.d.offsetLogEnd ∧ 0 < n := by
    intro t o n hx
    obtain ⟨h1, h2, h3⟩ := h.chunks t o n hx
    have ho : 32768 ∣ o := dvd_trans hal h1
    refine ⟨ho, ?_, by omega, by omega⟩
    rw [h3]
    rcases min_choice e.jobBytes (e.d.offsetLogEnd-o) with hm | hm
    · rw [hm]
      exact hal
    · rw [hm]
      exact Nat.dvd_sub hd.end_aligned ho
  refine ⟨hchunk, ?_, ?_⟩
  · intro o ho
    have hone := h.parsed_once hJ hseen o ho
    obtain ⟨ev, hev, hp⟩ := List.countP_pos_iff.mp (by rw [hone]; exact Nat.one_pos)
    cases ev with
    | parse t a n =>
      simp only [SyncEvent.parses, decide_eq_true_eq] at hp
      exact ⟨t, a, n, hev, hp.1, hp.2⟩
    | process t => exact Bool.noConfusion hp
  · intro p t o n q hev
    rcases h.flushed p t o n q hev with hp | hp
    · exact hp
    · -- a thread that has not closed its part still has bytes to count
      have hz := h.pending_zero hseen t
      cases hpc : s.pc t <;> rw [hpc] at hp hz <;>
        simp only [JobPc.Unflushed, JobPc.pending] at hp hz <;> omega

end

/-- The completion block of a local area bumps the RW version or leaves it. -/
theorem version_closed (e : CoopEnv) (hl : e.isLocal = true) (n : OwnerNode) (changes : Bool) :
    (e.closed n changes).mem.rw (e.d.h+offVersion) =
      n.mem.rw (e.d.h+offVersion)+(if changes then 1 else 0) := by
  cases changes
  · simp [CoopEnv.closed]
  · simp [CoopEnv.closed, hl, OwnerNode.publish]

/-- With empty lists, the lines that a completed sync copies are the logged ones. -/
theorem copiesLine_iff {d : AreaDesc} (hd : d.Wf) (isLocal : Bool) (m : NodeMem)
    (evs : List SyncEvent) (hev : Completes d evs)
    (hshort : ∀ t o n, .parse t o n ∈ evs → ShortIn d m o n)
    (hlists : ∀ t, Foreign d (m.lists t).l) (l : ℕ) (hl : d.Has l) :
    CopiesLine d isLocal m evs l ↔ lineBit m.log l = true := by
  have hpub (rw : Mem) := syncEvents_published_short hd isLocal { m with rw } evs hev hshort hlists
  constructor
  · intro hcopy
    by_contra hclear
    have hx : 64*l/64 = l := by omega
    have h1 := hcopy (fun x => m.ro x+1) (64*l) hx
    have h2 := (hpub fun x => m.ro x+1).ro_eq (64*l) (by rw [hx]; exact hl)
    rw [h1, hx, if_neg hclear] at h2
    exact absurd h2 (by simp)
  · intro hset rw x hx
    have h2 := (hpub rw).ro_eq x (by rw [hx]; exact hl)
    rw [h2, hx, if_pos hset]

/-- `has_changes` is right for an area below 2^31 bytes and empty lists. -/
theorem changes_iff_logged {d : AreaDesc} (hd : d.Wf) (hend : d.offsetLogEnd < 2^31)
    (isLocal : Bool) (m : NodeMem) (evs : List SyncEvent) (hev : Completes d evs)
    (hlists : ∀ t, (m.lists t).l = [] ∧ (m.lists t).changed = 0) {u : ℕ}
    (hu : u ∈ syncUpdated d isLocal m evs) :
    (u != 0 || u64 (syncUpdated d isLocal m evs).sum != 0) = true ↔
      ∃ l, d.Has l ∧ lineBit m.log l = true := by
  constructor
  · intro hch
    by_contra hnone
    have hclean : dirtyLines d m = 0 := by
      rw [dirtyLines_eq_zero hd]
      intro l hl
      rw [← Bool.not_eq_true]
      exact fun hset => hnone ⟨l, hl, hset⟩
    have hzero := syncUpdated_clean d isLocal evs (fun t o n hx => by
      obtain ⟨⟨a, ha⟩, ⟨b, hb⟩, hon, -⟩ := hev.aligned t o n hx
      exact ⟨⟨b, hb⟩, by omega⟩) m hlists hclean
    have hsum : (syncUpdated d isLocal m evs).sum = 0 := List.sum_eq_zero hzero
    rw [hsum, hzero u hu] at hch
    simp [u64] at hch
  · rintro ⟨l, hl, hset⟩
    by_contra hch
    simp only [Bool.not_eq_true, Bool.or_eq_false_iff, bne_eq_false_iff_eq] at hch
    have hclear := clean_of_sum_zero hd m isLocal evs hev (fun t => (hlists t).2)
      (fun t _ => (hlists t).1) (by rw [(hlists 0).1]; simp; omega) hch.2 l hl
    rw [hset] at hclear
    exact Bool.noConfusion hclear

open Classical in
/-- The version after the completion block: bumped when a line of the area was copied. -/
theorem CoopInv.version_bumped {e : CoopEnv} {T : Finset ℕ} {n₀ : OwnerNode} {s : CoopState}
    (h : CoopInv e T n₀ s) (hd : e.d.Wf) (hlocal : e.isLocal = true)
    (hend : e.d.offsetLogEnd < 2^31) (hev : Completes e.d s.evs)
    (hlists : ∀ t, (n₀.mem.lists t).l = [] ∧ (n₀.mem.lists t).changed = 0) (hf : s.finals ≠ []) :
    s.node.mem.rw (e.d.h+offVersion) = n₀.mem.rw (e.d.h+offVersion)+
      (if ∃ l, e.d.Has l ∧ CopiesLine e.d e.isLocal n₀.mem s.evs l then 1 else 0) := by
  obtain ⟨u, hu, hnode⟩ := h.closed_node hf
  have hiff := changes_iff_logged hd hend e.isLocal n₀.mem s.evs hev hlists hu
  have hcopied : (∃ l, e.d.Has l ∧ CopiesLine e.d e.isLocal n₀.mem s.evs l) ↔
      ∃ l, e.d.Has l ∧ lineBit n₀.mem.log l = true := by
    apply exists_congr
    intro l
    apply and_congr_right
    intro hl
    apply copiesLine_iff hd e.isLocal n₀.mem s.evs hev _ _ l hl
    · intro t o n hx
      obtain ⟨h1, -, h3, -⟩ := hev.aligned t o n hx
      exact shortIn_of_lt e.d n₀.mem h1 (by omega)
    · intro t
      rw [(hlists t).1]
      exact fun it hit => absurd hit List.not_mem_nil
  have hver := version_closed e hlocal { n₀ with mem := syncEvents e.d e.isLocal n₀.mem s.evs }
    (u != 0 || u64 (syncUpdated e.d e.isLocal n₀.mem s.evs).sum != 0)
  simp only [rw_events e.d e.isLocal s.evs] at hver
  rw [hnode, hver]
  simp only [hcopied, hiff]

/-- Cooperative sync covers every chunk exactly once, as long as no fetch-and-add
makes `offset` wrap. `job_bytes` is positive and aligned and its divisor is not
zero, because the daemon counts itself. Chunks are parsed at most once, and
exactly once when the completion block is reached; one thread executes the block,
after all parts were closed and, unless a run of logged lines inside a chunk
reaches 4 GiB, all logged lines were copied. The version is bumped exactly when
a line of the area was copied. -/
theorem cooperative_sync_covers_once (ss : SlotState) (hss : slotSystem.Reachable ss)
    (hrun : (ss.table.tdata 0).state = .running) (gone : ℕ → Bool)
    (kill : ThreadTable → ℕ → ThreadTable) (hgone : gone 0 = false) (areas : List AreaDesc)
    (nrThreads : ℕ) (hnr : nrThreads = (schedScan gone kill (List.range nrThreadsLocal) ss.table).2)
    (e : CoopEnv) (hd : e.d.Wf) (hpos : 0 < e.d.offsetLogEnd)
    (hjob : e.jobBytes = jobBytes areas nrThreads) (T : Finset ℕ) (n₀ : OwnerNode) (s : CoopState)
    (h : ((coopSystem e T n₀).restrict (NoWrap e)).Reachable s) :
    (nrThreads*8 ≠ 0 ∧ 0 < e.jobBytes ∧ alignment ∣ e.jobBytes) ∧
    (∀ t o n, .parse t o n ∈ s.evs → e.jobBytes ∣ o ∧ o < e.d.offsetLogEnd ∧
      n = min e.jobBytes (e.d.offsetLogEnd-o)) ∧
    (∀ x < e.d.offsetLogEnd, s.evs.countP (SyncEvent.parses x) ≤ 1) ∧
    s.finals.length ≤ 1 ∧
    (s.returned ≠ [] ∨ ((∀ t ∈ T, s.pc t = .out) ∧ e.d.offsetLogEnd ≤ s.job.offset) →
      s.finals.length = 1) ∧
    ((∃ t u, s.pc t = .finish u) ∨ s.finals ≠ [] → Completes e.d s.evs ∧
      ∀ x < e.d.offsetLogEnd, s.evs.countP (SyncEvent.parses x) = 1) ∧
    ((∃ t u, s.pc t = .finish u) → (∀ t, Foreign e.d (n₀.mem.lists t).l) →
      (∀ o, e.jobBytes ∣ o → ShortIn e.d n₀.mem o (min e.jobBytes (e.d.offsetLogEnd-o))) →
      Published e.d e.isLocal n₀.mem s.node.mem) ∧
    (e.isLocal = true → e.d.offsetLogEnd < 2^31 →
      (∀ t, (n₀.mem.lists t).l = [] ∧ (n₀.mem.lists t).changed = 0) → s.finals ≠ [] →
      ((∃ l, e.d.Has l ∧ CopiesLine e.d e.isLocal n₀.mem s.evs l) →
        s.node.mem.rw (e.d.h+offVersion) = n₀.mem.rw (e.d.h+offVersion)+1) ∧
      (¬(∃ l, e.d.Has l ∧ CopiesLine e.d e.isLocal n₀.mem s.evs l) →
        s.node.mem.rw (e.d.h+offVersion) = n₀.mem.rw (e.d.h+offVersion))) := by
  have hone := one_le_schedScan hss hrun gone kill hgone
  have hJ : 0 < e.jobBytes := hjob ▸ jobBytes_pos areas nrThreads
  have hal : alignment ∣ e.jobBytes := hjob ▸ jobBytes_aligned areas nrThreads
  have hin := hd.inside
  have hi := coopInv_reachable hJ hpos (by omega) h
  have hfin := hi.finals
  have hbytes := hi.bytes
  have hdone : (∃ t u, s.pc t = .finish u) ∨ s.finals ≠ [] →
      s.job.bytesSeen = e.d.offsetLogEnd := by
    rintro (⟨t, u, hpc⟩ | hf)
    · exact hi.bytesSeen_of_finish hpc
    · exact hi.bytesSeen_of_finals hf
  have hlen : s.finals.length ≤ 1 := by
    split_ifs at hfin <;> omega
  refine ⟨⟨by omega, hJ, hal⟩, hi.chunks, ?_, hlen, ?_, ?_, ?_, ?_⟩
  · intro x hx
    have ho := hi.once x hx
    split_ifs at ho <;> omega
  · rintro (hr | ⟨hout, hoff⟩)
    · have := List.length_pos_iff.mpr (hi.returned hr)
      omega
    · -- nobody is inside, so nothing is left to count and nobody is about to finish
      have hpend : ∑ t ∈ T, (s.pc t).pending = 0 :=
        Finset.sum_eq_zero fun t ht => by rw [hout t ht]; rfl
      have hnone : ∑ t ∈ T, (s.pc t).finishing = 0 :=
        Finset.sum_eq_zero fun t ht => by rw [hout t ht]; rfl
      rw [if_pos (by omega)] at hfin
      omega
  · intro hr
    exact ⟨hi.completes hd hal hJ (hdone hr), hi.parsed_once hJ (hdone hr)⟩
  · rintro ⟨t, u, hpc⟩ hforeign hshort
    have hseen := hi.bytesSeen_of_finish hpc
    rw [hi.open_node (hi.finals_nil_of_finish hpc)]
    apply syncEvents_published_short hd e.isLocal n₀.mem s.evs (hi.completes hd hal hJ hseen) _ hforeign
    intro t o n hx
    obtain ⟨h1, -, h3⟩ := hi.chunks t o n hx
    rw [h3]
    exact hshort o h1
  · intro hlocal hend hlists hf
    have hev := hi.completes hd hal hJ (hdone (Or.inr hf))
    have hver := hi.version_bumped hd hlocal hend hev hlists hf
    constructor
    · intro hc
      rw [hver, if_pos hc]
    · intro hc
      rw [hver, if_neg hc, Nat.add_zero]

/-- A node with a fresh area behind the root descriptor. -/
def coopNode : OwnerNode :=
  { mem := ⟨fun _ => 0, fun _ => 0, fun _ => 0#64, fun _ _ => 0#64, fun _ => {}⟩
    info := fun _ => {}, lastSyncExtUs := 0, sleeping := false, tx := {} }

/-- A node with the daemon and one booted process. -/
def bootedPair : SlotState := slotSystem.run (.booted 1) (bootActs 100 1)

/-- An area that is synced cooperatively. -/
def pairArea : AreaDesc := ⟨32768, 524288, false⟩

def pairEnv : CoopEnv :=
  ⟨pairArea, true, some 1, jobBytes [pairArea]
    (schedScan (fun _ => false) (fun t _ => t) (List.range nrThreadsLocal) bootedPair.table).2, 5⟩

/-- Its owner has written and logged one word, in the last of the four chunks. -/
def writtenNode : OwnerNode :=
  { coopNode with mem := { coopNode.mem with
      rw := fun a => if a = 430000 then 7 else 0
      log := tasvirLog (fun _ => 0#64) (addrData+430000) 8 } }

instance (e : CoopEnv) (T : Finset ℕ) (n₀ : OwnerNode) (s : CoopState) (t : ℕ) :
    Decidable (((coopSystem e T n₀).restrict (NoWrap e)).pre s t) :=
  inferInstanceAs (Decidable (t ∈ T ∧ ((s.pc t).claiming = true → _)))

/-- The two threads in turn, up to step `n`. -/
def pairState (n : ℕ) : CoopState :=
  ((coopSystem pairEnv {0, 1} writtenNode).restrict (NoWrap pairEnv)).run
    { node := writtenNode, extEnqueue := false } ((List.range n).map (·%2))

/-- Each of the two parses two of the four chunks. Behind step 30 all is published and thread 1 is
about to execute the completion block, behind step 32 it has bumped the version. -/
theorem cooperative_sync_covers_once_pair :
    (Completes pairEnv.d (pairState 30).evs ∧
      (∀ x < pairEnv.d.offsetLogEnd, (pairState 30).evs.countP (SyncEvent.parses x) = 1) ∧
      Published pairEnv.d pairEnv.isLocal writtenNode.mem (pairState 30).node.mem) ∧
    (pairState 32).finals.length = 1 ∧
    (pairState 32).node.mem.rw (pairEnv.d.h+offVersion) =
      writtenNode.mem.rw (pairEnv.d.h+offVersion)+1 := by
  have hd : pairArea.Wf := ⟨⟨1, rfl⟩, by norm_num [pairArea], ⟨16, rfl⟩, by norm_num [pairArea]⟩
  have hboot : slotSystem.init (.booted 1) := ⟨1, by norm_num, rfl⟩
  have hslots : slotSystem.Reachable bootedPair :=
    (System.Reachable.init hboot).run (bootActs 100 1) (by decide +kernel)
  have hinit : ((coopSystem pairEnv {0, 1} writtenNode).restrict (NoWrap pairEnv)).init
      { node := writtenNode, extEnqueue := false } := ⟨false, rfl⟩
  have h30 : ((coopSystem pairEnv {0, 1} writtenNode).restrict (NoWrap pairEnv)).Reachable
      (pairState 30) := (System.Reachable.init hinit).run _ (by decide +kernel)
  have h32 : ((coopSystem pairEnv {0, 1} writtenNode).restrict (NoWrap pairEnv)).Reachable
      (pairState 32) := (System.Reachable.init hinit).run _ (by decide +kernel)
  have hfinish : ∃ t u, (pairState 30).pc t = .finish u := ⟨1, 64, by decide +kernel⟩
  have hfinals : (pairState 32).finals = [1] := by decide +kernel
  have hlists (t : ℕ) : Foreign pairArea (writtenNode.mem.lists t).l :=
    fun it hit => absurd hit List.not_mem_nil
  have hshort (o : ℕ) (ho : pairEnv.jobBytes ∣ o) :
      ShortIn pairArea writtenNode.mem o (min pairEnv.jobBytes (pairArea.offsetLogEnd-o)) := by
    have hjob : pairEnv.jobBytes = 131072 := by decide +kernel
    rw [hjob] at ho ⊢
    exact shortIn_of_lt _ _ ((show 32768 ∣ 131072 by decide).trans ho) (by omega)
  obtain ⟨-, -, -, -, -, hall, hpub, -⟩ := cooperative_sync_covers_once bootedPair hslots
    (by decide +kernel) (fun _ => false) (fun t _ => t) rfl [pairArea] _ rfl pairEnv hd
    (by decide) rfl {0, 1} writtenNode _ h30
  obtain ⟨-, -, -, -, -, hall', -, hversion⟩ := cooperative_sync_covers_once bootedPair hslots
    (by decide +kernel) (fun _ => false) (fun t _ => t) rfl [pairArea] _ rfl pairEnv hd
    (by decide) rfl {0, 1} writtenNode _ h32
  have hne : (pairState 32).finals ≠ [] := by rw [hfinals]; exact List.cons_ne_nil _ _
  have hcompletes := (hall' (.inr hne)).1
  -- the line of the word that was logged
  have hcopied : CopiesLine pairEnv.d pairEnv.isLocal writtenNode.mem (pairState 32).evs (430000/64) := by
    apply (copiesLine_iff hd pairEnv.isLocal writtenNode.mem _ hcompletes ?_ hlists _
      ⟨by decide, by decide⟩).mpr (by decide +kernel)
    intro t o n hx
    obtain ⟨ho, -, hlen, -⟩ := hcompletes.aligned t o n hx
    have hend : pairEnv.d.offsetLogEnd = 524288 := rfl
    exact shortIn_of_lt _ _ ho (by omega)
  have hbump := (hversion rfl (by decide) (fun _ => ⟨rfl, rfl⟩) hne).1
    ⟨430000/64, ⟨by decide, by decide⟩, hcopied⟩
  exact ⟨⟨(hall (.inl hfinish)).1, (hall (.inl hfinish)).2, hpub hfinish hlists hshort⟩,
    congrArg List.length hfinals, hbump⟩

/-- Two threads on an area that is synced cooperatively. -/
def spinEnv : CoopEnv :=
  ⟨⟨32768, 524288, false⟩, true, some 1, jobBytes [⟨32768, 524288, false⟩] 2, 5⟩

theorem spinEnv_jobBytes : spinEnv.jobBytes = 131072 := by decide

theorem spin_step {s s' : CoopState} (h : (coopSystem spinEnv {0, 1} coopNode).Reachable s)
    (hs : s.step spinEnv 0 = s') : (coopSystem spinEnv {0, 1} coopNode).Reachable s' := by
  rw [← hs]
  exact h.step (S := coopSystem spinEnv {0, 1} coopNode) (a := 0)
    (show (0 : ℕ) ∈ ({0, 1} : Finset ℕ) by decide)

/-- What the spinning of thread 0 leaves as it is. -/
structure Spinning (s : CoopState) : Prop where
  reachable : (coopSystem spinEnv {0, 1} coopNode).Reachable s
  idle : s.pc 0 = .out
  stage1 : s.job.doneStage1 = false
  stage2 : s.job.doneStage2 = false
  parsed : .parse 1 0 131072 ∈ s.evs

/-- Thread 0 starts a visit and gets as far as the fetch-and-add. -/
theorem Spinning.visit {s : CoopState} (h : Spinning s) :
    ∃ s', (coopSystem spinEnv {0, 1} coopNode).Reachable s' ∧ s'.pc 0 = .claim 0 ∧
      s'.job = s.job ∧ s'.evs = s.evs := by
  have hself : spinEnv.selfSync = false := by decide
  have h1 : s.step spinEnv 0 = s.goto 0 .start := by
    simp [CoopState.step, h.idle, h.stage2, hself]
  have h2 : (s.goto 0 .start).step spinEnv 0 = (s.goto 0 .start).goto 0 (.loop 0) := by
    simp [CoopState.step, CoopState.goto, h.stage1]
  have h3 : ((s.goto 0 .start).goto 0 (.loop 0)).step spinEnv 0 =
      ((s.goto 0 .start).goto 0 (.loop 0)).goto 0 (.claim 0) := by
    simp [CoopState.step, CoopState.goto, h.stage1]
  exact ⟨_, spin_step (spin_step (spin_step h.reachable h1) h2) h3, by simp [CoopState.goto], rfl, rfl⟩

/-- A visit that finds no chunk only moves `offset`. -/
theorem Spinning.spin {s : CoopState} (h : Spinning s) (hoff : 524288 ≤ s.job.offset) :
    ∃ s', Spinning s' ∧ s'.job.offset = u64 (s.job.offset+131072) := by
  obtain ⟨s₁, hreach, hpc, hjob, hevs⟩ := h.visit
  obtain ⟨s₂, hs₂⟩ : ∃ s₂ : CoopState, s₂ = { s₁ with
      job := { s₁.job with offset := u64 (s₁.job.offset+131072) } }.goto 0 (.left 0) := ⟨_, rfl⟩
  have h1 : s₁.step spinEnv 0 = s₂ := by
    simp only [CoopState.step, hpc, spinEnv_jobBytes, hs₂]
    rw [if_neg (by rw [hjob]; simp only [spinEnv]; omega)]
  have h2 : s₂.step spinEnv 0 = s₂.goto 0 .out := by
    simp [CoopState.step, hs₂, CoopState.goto]
  refine ⟨_, ⟨spin_step (spin_step hreach h1) h2, by simp [CoopState.goto], ?_, ?_, ?_⟩, ?_⟩
  · simp only [hs₂, CoopState.goto, hjob]
    exact h.stage1
  · simp only [hs₂, CoopState.goto, hjob]
    exact h.stage2
  · simp only [hs₂, CoopState.goto, hevs]
    exact h.parsed
  · simp only [hs₂, CoopState.goto, hjob]

theorem Spinning.spins {s : CoopState} (h : Spinning s) (hoff : 524288 ≤ s.job.offset) (k : ℕ)
    (hk : s.job.offset+131072*k < 2^64) :
    ∃ s', Spinning s' ∧ s'.job.offset = s.job.offset+131072*k := by
  induction k with
  | zero => exact ⟨s, h, by omega⟩
  | succ k ih =>
    obtain ⟨s₁, h₁, ho⟩ := ih (by omega)
    have hsmall : s₁.job.offset+131072 < 2^64 := by
      rw [ho, Nat.add_assoc, ← Nat.mul_succ]
      exact hk
    obtain ⟨s₂, h₂, ho₂⟩ := h₁.spin (by omega)
    refine ⟨s₂, h₂, ?_⟩
    rw [ho₂, u64, Nat.mod_eq_of_lt hsmall, ho, Nat.mul_succ, Nat.add_assoc]

/-- The defect: a thread that finds no chunk returns without setting
`done_stage1` and adds to `offset` again on its next visit. While the owner is
delayed in front of its last chunk, 2^47-4 such visits bring `offset` back to 0
and the first chunk is handed out, and parsed, a second time. -/
theorem offset_wraps_chunk_parsed_twice :
    ∃ s, (coopSystem spinEnv {0, 1} coopNode).Reachable s ∧
      .parse 1 0 131072 ∈ s.evs ∧ .parse 0 0 131072 ∈ s.evs := by
  have hstart : (coopSystem spinEnv {0, 1} coopNode).Reachable
      { node := coopNode, extEnqueue := false } := .init ⟨false, rfl⟩
  have hclaimed := hstart.run (List.replicate 13 1) (by
    simp only [List.replicate, System.Enabled, coopSystem]
    decide)
  have hspin : Spinning (System.run (coopSystem spinEnv {0, 1} coopNode)
      { node := coopNode, extEnqueue := false } (List.replicate 13 1)) :=
    ⟨hclaimed, rfl, rfl, rfl, by decide⟩
  have hoff : (System.run (coopSystem spinEnv {0, 1} coopNode)
      { node := coopNode, extEnqueue := false } (List.replicate 13 1)).job.offset = 524288 := rfl
  generalize System.run (coopSystem spinEnv {0, 1} coopNode)
    { node := coopNode, extEnqueue := false } (List.replicate 13 1) = s at hspin hoff
  obtain ⟨s₁, h₁, ho₁⟩ := hspin.spins (by omega) (2^47-5) (by omega)
  obtain ⟨s₂, h₂, ho₂⟩ := h₁.spin (by omega)
  have hzero : s₂.job.offset = 0 := by
    rw [ho₂, ho₁, hoff]
    decide
  obtain ⟨s₃, h₃, hpc, hjob, hevs⟩ := h₂.visit
  obtain ⟨s₄, hs₄⟩ : ∃ s₄ : CoopState, s₄ = { s₃ with
      job := { s₃.job with offset := u64 (0+131072) } }.goto 0 (.parse 0 0 131072) := ⟨_, rfl⟩
  have h4 : s₃.step spinEnv 0 = s₄ := by
    simp only [CoopState.step, hpc, spinEnv_jobBytes, hjob, hzero, hs₄]
    rfl
  have h5 : s₄.step spinEnv 0 = (s₄.call spinEnv (.parse 0 0 131072)).goto 0 (.loop 131072) := by
    simp [CoopState.step, hs₄, CoopState.goto]
  refine ⟨_, spin_step (spin_step h₃ h4) h5, ?_, ?_⟩
  · simp only [CoopState.goto, CoopState.call, hs₄, hevs]
    exact List.mem_append_left _ h₂.parsed
  · simp only [CoopState.goto, CoopState.call]
    exact List.mem_append_right _ (List.mem_singleton.mpr rfl)

end Tasvir
