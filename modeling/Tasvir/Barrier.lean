import Mathlib.Tactic
import Tasvir.Machine

/-! The barrier in front of an internal sync: the daemon counts the running threads and
gives them a sequence number, and every thread decrements the counter once. The steps
of `tasvir_sched_sync_internal`, `tasvir_barrier_wait` and `tasvir_sync_internal` on
shared memory are single actions, and any thread can be late at any of them. -/
namespace Tasvir
open Machine

/-- Where a thread is in `tasvir_sync_internal`; the number is its `seq`. -/
inductive BarrierPc
  | out
  | entered
  /-- has read `next_sync_seq` -/
  | got (S : ℕ)
  /-- has found `barrier_seq` equal to it -/
  | ready (S : ℕ)
  /-- was the last one to decrement the counter -/
  | last (S : ℕ)
  | polling (S : ℕ)
  /-- polls after `barrier_end_tsc` -/
  | expired (S : ℕ)
  /-- `tasvir_barrier_wait` has returned -/
  | returned (ok : Bool) (S : ℕ)
  /-- has read `next_sync_seq` again and will write it to `prev_sync_seq` -/
  | leaving (ok : Bool) (v : ℕ)
  /-- the process is gone -/
  | dead
deriving DecidableEq, Repr

/-- Where the daemon is outside of the barrier. -/
inductive DaemonPos
  /-- in `tasvir_service`, at top level or inside of a kill at the end of a sync -/
  | idle
  /-- at slot `i` of the heartbeat loop, with `c` threads counted -/
  | scan (i c : ℕ)
  /-- inside of `tasvir_kill_thread` for slot `i`, with `pending` set -/
  | scanKill (i c : ℕ)
  /-- has written `barrier_cnt` -/
  | armed
  /-- has written `barrier_seq` and gives it to slot `i` -/
  | give (i : ℕ)
  /-- has returned from `tasvir_sched_sync_internal` -/
  | served
  | sync
  /-- waits for slot `i` at the end of `tasvir_sync_internal` -/
  | await (i : ℕ)
deriving DecidableEq, Repr

/-- What happens to a thread, for the record. -/
inductive BarrierEvent
  | given (t S : ℕ)
  | decremented (t S : ℕ)
  | returned (t S : ℕ) (ok : Bool)
deriving DecidableEq, Repr

/-- The part of `tasvir_local_tdata` that the barrier uses. -/
structure SyncTdata where
  /-- `state` is TASVIR_THREAD_STATE_RUNNING -/
  running : Bool
  /-- `state_req`, none for TASVIR_THREAD_STATE_INVALID -/
  req : Option Bool
  next : ℕ
  prev : ℕ
deriving DecidableEq, Repr

structure BarrierState where
  /-- `barrier_cnt`, which no run decrements often enough to wrap around to 1 -/
  cnt : ℤ
  seq : ℕ
  tdata : ℕ → SyncTdata
  pc : ℕ → BarrierPc
  pos : DaemonPos
  /-- slots that unfinished kills at the end of a sync are about, innermost first -/
  outer : List ℕ
  /-- the sequence number that `barrier_cnt` was last written for -/
  round : ℕ
  log : List BarrierEvent

inductive BarrierAct
  | sched
  /-- the body of the heartbeat loop; `gone` tells that the thread does not exist any more -/
  | scan (gone : Bool)
  /-- the end of a kill in the heartbeat loop -/
  | reap
  | setCnt (S : ℕ)
  | setSeq
  | give
  /-- `next_sync_seq != prev_sync_seq` in the daemon's `tasvir_service` -/
  | check
  | await
  /-- the wait for a thread times out and `tasvir_kill_thread` starts -/
  | giveUp
  | killed
  /-- an application thread calls `tasvir_service` -/
  | enter (t : ℕ)
  /-- the next access of a thread to shared memory; `e` is the clock's answer, or that a
  weak exchange does not fail by itself -/
  | step (t : ℕ) (e : Bool)
  | activate (t : ℕ) (active : Bool)
  | crash (t : ℕ)
  /-- the daemon executes `tasvir_init_finish` for a new thread -/
  | boot (t : ℕ)

namespace BarrierState

def goto (s : BarrierState) (t : ℕ) (p : BarrierPc) : BarrierState :=
  { s with pc := Function.update s.pc t p }

def setTdata (s : BarrierState) (t : ℕ) (x : SyncTdata) : BarrierState :=
  { s with tdata := Function.update s.tdata t x }

def record (s : BarrierState) (e : BarrierEvent) : BarrierState := { s with log := e :: s.log }

/-- `tasvir_barrier_wait` returns. -/
def ret (s : BarrierState) (t S : ℕ) (ok : Bool) : BarrierState :=
  (s.record (.returned t S ok)).goto t (.returned ok S)

/-- `barrier_seq - seq` as an `int`: its low 32 bits. -/
def diff (s : BarrierState) (S : ℕ) : ℤ := ((s.seq : ℤ) - S) % 2^32

/-- The end of `tasvir_kill_thread`. -/
def kill (s : BarrierState) (t : ℕ) : BarrierState :=
  (s.setTdata t ⟨false, none, 0, 0⟩).goto t .dead

/-- One access to shared memory of a thread in `tasvir_barrier_wait` or at the end of
`tasvir_sync_internal`. -/
def threadStep (s : BarrierState) (t : ℕ) (e : Bool) : BarrierState :=
  match s.pc t with
  | .entered => s.goto t (.got (s.tdata t).next)
  | .got S => if S ≠ s.seq then s.ret t S false else s.goto t (.ready S)
  | .ready S =>
    ({ s with cnt := s.cnt - 1 }.record (.decremented t S)).goto t
      (if s.cnt = 1 then .last S else .polling S)
  | .last S => if s.seq = S then { s with seq := S + 1 }.ret t S true else s.ret t S false
  | .polling S =>
    if s.diff S = 0 then s.goto t (if e then .expired S else .polling S)
    else s.ret t S (s.diff S = 1)
  | .expired S =>
    if s.seq = S ∧ e then { s with seq := S + 2 }.ret t S false else s.goto t (.polling S)
  | .returned ok _ => s.goto t (.leaving ok (s.tdata t).next)
  | .leaving ok v =>
    let s := (s.setTdata t { s.tdata t with prev := v }).goto t .out
    -- after a sync the daemon waits for the other threads
    if t = 0 then { s with pos := if ok then .await 0 else .idle } else s
  | .out | .dead => s

/-- The body of the heartbeat loop at slot `i`. -/
def scanSlot (s : BarrierState) (i c : ℕ) (gone : Bool) : BarrierState :=
  let x := { s.tdata i with running := (s.tdata i).req.getD (s.tdata i).running }
  let s := s.setTdata i x
  { s with
    pos := if x.running then (if gone then .scanKill i c else .scan (i + 1) (c + 1))
      else .scan (i + 1) c }

def giveSlot (s : BarrierState) (i : ℕ) : BarrierState :=
  { (if (s.tdata i).running then
      (s.setTdata i { s.tdata i with next := s.round }).record (.given i s.round) else s) with
    pos := .give (i + 1) }

/-- `N` is TASVIR_NR_THREADS_LOCAL. -/
def pre (N : ℕ) (s : BarrierState) : BarrierAct → Prop
  | .sched => s.pos = .idle
  | .scan gone => ∃ i c, s.pos = .scan i c ∧ i < N ∧ (gone = true → s.pc i = .dead)
  | .reap => ∃ i c, s.pos = .scanKill i c
  -- the sequence number has a healthy gap from the previous one
  | .setCnt S => (∃ c, s.pos = .scan N c) ∧ s.round + 2 < S
  | .setSeq => s.pos = .armed
  | .give => ∃ i, s.pos = .give i ∧ i ≤ N
  | .check => s.pos = .idle ∨ s.pos = .served
  | .await => ∃ i, s.pos = .await i ∧ i ≤ N ∧
      (i < N → (s.tdata i).running = true → (s.tdata i).next = (s.tdata i).prev)
  | .giveUp => ∃ i, s.pos = .await i ∧ i < N ∧ (s.tdata i).running = true ∧
      (s.tdata i).next ≠ (s.tdata i).prev
  | .killed => s.pos = .idle ∧ s.outer ≠ []
  | .enter t => t ≠ 0 ∧ t < N ∧ s.pc t = .out ∧ (s.tdata t).running = true ∧
      (s.tdata t).next ≠ (s.tdata t).prev
  | .step t _ => t < N ∧ s.pc t ≠ .out ∧ s.pc t ≠ .dead
  | .activate t _ => t ≠ 0 ∧ t < N ∧ s.pc t = .out
  | .crash t => t ≠ 0 ∧ t < N
  | .boot t => t ≠ 0 ∧ t < N ∧ s.pc t = .dead ∧ (s.tdata t).running = false ∧
      (s.pos = .idle ∨ ∃ i c, s.pos = .scanKill i c)

def next (N : ℕ) (s : BarrierState) : BarrierAct → BarrierState
  | .sched => { s with pos := .scan 0 0 }
  | .scan gone => match s.pos with
    | .scan i c => s.scanSlot i c gone
    | _ => s
  | .reap => match s.pos with
    | .scanKill i c => { s.kill i with pos := .scan (i + 1) c }
    | _ => s
  | .setCnt S => match s.pos with
    | .scan _ c => { s with cnt := c, round := S, pos := .armed }
    | _ => s
  -- a step of its own, behind the one that sets the counter
  | .setSeq => { s with seq := s.round, pos := .give 0 }
  | .give => match s.pos with
    | .give i => if i < N then s.giveSlot i else { s with pos := .served }
    | _ => s
  | .check =>
    -- the daemon takes part like any other thread
    if (s.tdata 0).next ≠ (s.tdata 0).prev then { s.goto 0 .entered with pos := .sync }
    else { s with pos := .idle }
  | .await => match s.pos with
    | .await i => { s with pos := if i < N then .await (i + 1) else .idle }
    | _ => s
  -- a thread does not answer: it is killed, with the daemon's other work going on meanwhile
  | .giveUp => match s.pos with
    | .await i => { s with pos := .idle, outer := i :: s.outer }
    | _ => s
  | .killed => match s.outer with
    | i :: rest => { s.kill i with pos := .await (i + 1), outer := rest }
    | [] => s
  | .enter t => s.goto t .entered
  | .step t e => s.threadStep t e
  | .activate t active => s.setTdata t { s.tdata t with req := some active }
  | .crash t => s.goto t .dead
  | .boot t => (s.setTdata t ⟨true, some true, 0, 0⟩).goto t .out

/-- The daemon has booted and no thread is there yet. -/
def booted : BarrierState where
  cnt := -1
  seq := 1
  tdata := fun t => if t = 0 then ⟨true, some true, 0, 0⟩ else ⟨false, none, 0, 0⟩
  pc := fun t => if t = 0 then .out else .dead
  pos := .idle
  outer := []
  round := 0
  log := []

end BarrierState

def barrierSystem (N : ℕ) : System BarrierState BarrierAct where
  init := (· = BarrierState.booted)
  pre := BarrierState.pre N
  next := BarrierState.next N

/-- If the barrier lets any thread through for a sequence number, every thread that was
given the number has decremented the counter for it and is not turned away. -/
def BarrierSafe (s : BarrierState) : Prop :=
  ∀ t S, .returned t S true ∈ s.log → ∀ u, .given u S ∈ s.log →
    .decremented u S ∈ s.log ∧ .returned u S false ∉ s.log

/-- The condition on the steps: a thread decrements the counter before it is written for
a later round; it reads `barrier_seq` before the low 32 bits of the difference come back
to 1; no thread starts in a slot that the heartbeat loop has passed; and a kill at the
end of a sync schedules no further round while a thread polls for this one. -/
def BarrierState.orderly (s : BarrierState) : BarrierAct → Prop
  | .step t _ => (∀ S, s.pc t = .ready S → S = s.round) ∧
      (∀ S, s.pc t = .polling S → s.diff S = 1 → s.seq = S + 1)
  | .boot t => ∀ i c, s.pos = .scanKill i c → i < t
  | .sched => s.outer ≠ [] → ∀ t S, s.pc t = .polling S ∨ s.pc t = .expired S → s.seq ≠ S + 1
  | _ => True

namespace DaemonPos

/-- The round that `barrier_cnt` was written for has started and the daemon has not left it. -/
def isOpen : DaemonPos → Prop
  | .give _ | .served | .sync => True
  | _ => False

/-- The running threads may change before the next sequence number is out. -/
def scanning : DaemonPos → Prop
  | .scan _ _ | .scanKill _ _ | .armed => True
  | _ => False

end DaemonPos

/-- The last sequence number that a thread has dealt with or is dealing with. -/
def BarrierPc.mark (x : SyncTdata) : BarrierPc → ℕ
  | .out | .entered | .dead => x.prev
  | .got S | .ready S | .last S | .polling S | .expired S | .returned _ S | .leaving _ S => S

namespace BarrierState

/-- The barrier has let a thread through. -/
def Won (s : BarrierState) (S : ℕ) : Prop := ∃ t, .returned t S true ∈ s.log

/-- Threads that can still poll after a round that has succeeded. -/
def mayPoll (s : BarrierState) (t : ℕ) : Prop :=
  match s.pos, s.outer with
  | .give _, _ | .served, _ | .sync, _ => True
  | .await i, _ => i ≤ t
  | .idle, j :: _ => j ≤ t
  | _, _ => False

def PcOk (s : BarrierState) (t : ℕ) : BarrierPc → Prop
  | .out | .dead | .leaving _ _ => True
  | .entered => (s.tdata t).prev < (s.tdata t).next
  | .got S | .ready S =>
    .given t S ∈ s.log ∧ (s.tdata t).prev < S ∧ .decremented t S ∉ s.log
  | .last S => .given t S ∈ s.log ∧ (s.tdata t).prev < S ∧ .decremented t S ∈ s.log ∧ ¬ s.Won S
  | .polling S | .expired S =>
    .given t S ∈ s.log ∧ (s.tdata t).prev < S ∧ .decremented t S ∈ s.log ∧
      (s.Won S → s.seq = S + 1)
  | .returned ok S => .returned t S ok ∈ s.log

/-- What others do leaves a thread's place as good as it was. -/
theorem PcOk.of_others {s s' : BarrierState} {u : ℕ} {p : BarrierPc} (h : s.PcOk u p)
    (hnext : (s.tdata u).next ≤ (s'.tdata u).next) (hprev : (s'.tdata u).prev = (s.tdata u).prev)
    (hlog : ∀ e ∈ s.log, e ∈ s'.log)
    (hdec : ∀ S, .decremented u S ∈ s'.log → .decremented u S ∈ s.log)
    (hlast : ∀ S, p = .last S → ¬ s.Won S → ¬ s'.Won S)
    (hpolls : ∀ S, p = .polling S ∨ p = .expired S → (s.Won S → s.seq = S + 1) →
      s'.Won S → s'.seq = S + 1) : s'.PcOk u p := by
  cases p with
  | out | dead | leaving => trivial
  | entered =>
    simp only [PcOk, hprev] at h ⊢
    exact h.trans_le hnext
  | got S | ready S =>
    simp only [PcOk, hprev] at h ⊢
    exact ⟨hlog _ h.1, h.2.1, fun hd => h.2.2 (hdec S hd)⟩
  | last S =>
    simp only [PcOk, hprev] at h ⊢
    exact ⟨hlog _ h.1, h.2.1, hlog _ h.2.2.1, hlast S rfl h.2.2.2⟩
  | polling S | expired S =>
    simp only [PcOk, hprev] at h ⊢
    exact ⟨hlog _ h.1, h.2.1, hlog _ h.2.2.1, hpolls S (by simp) h.2.2.2⟩
  | returned ok S => exact hlog _ h

def nrRunning (s : BarrierState) (n : ℕ) : ℕ :=
  ((Finset.range n).filter fun t => (s.tdata t).running = true).card

def nrDecremented (s : BarrierState) (n : ℕ) : ℕ :=
  ((Finset.range n).filter fun t => BarrierEvent.decremented t s.round ∈ s.log).card

/-- The daemon runs, and outside of a round it has finished the previous one. -/
structure DaemonOk (N : ℕ) (s : BarrierState) : Prop where
  running : (s.tdata 0).running = true
  req : (s.tdata 0).req ≠ some false
  alive : s.pc 0 ≠ .dead
  out : s.pos ≠ .sync → s.pc 0 = .out
  finished : ¬ s.pos.isOpen → (s.tdata 0).next = (s.tdata 0).prev
  give : ∀ i, s.pos = .give i → if i = 0 then (s.tdata 0).next = (s.tdata 0).prev
    else (s.tdata 0).next = s.round ∧ (s.tdata 0).prev < s.round
  served : s.pos = .served → if N = 0 then (s.tdata 0).next = (s.tdata 0).prev
    else (s.tdata 0).next = s.round ∧ (s.tdata 0).prev < s.round
  sync : s.pos = .sync → 0 < N ∧ (s.tdata 0).next = s.round ∧ s.pc 0 ≠ .out ∧
    (s.pc 0 = .entered ∨ (s.pc 0).mark (s.tdata 0) = s.round)
  back : ∀ ok S, s.pos = .sync → s.pc 0 = .returned ok S ∨ s.pc 0 = .leaving ok S →
    s.seq ≠ s.round ∧ .returned 0 s.round ok ∈ s.log

end BarrierState

theorem BarrierState.DaemonOk.of_eq {N : ℕ} {s s' : BarrierState} (h : s.DaemonOk N)
    (htdata : s'.tdata 0 = s.tdata 0) (hpc : s'.pc 0 = s.pc 0) (hpos : s'.pos = s.pos)
    (hround : s'.round = s.round) (hseq : s.seq ≠ s.round → s'.seq ≠ s.round)
    (hlog : ∀ e ∈ s.log, e ∈ s'.log) : s'.DaemonOk N := by
  constructor <;> simp only [hpos, hround, htdata, hpc]
  case running => exact h.running
  case req => exact h.req
  case alive => exact h.alive
  case out => exact h.out
  case finished => exact h.finished
  case give => exact h.give
  case served => exact h.served
  case sync => exact h.sync
  case back => exact fun ok S hp hb => (h.back ok S hp hb).imp hseq (hlog _)

/-- The daemon between two rounds. -/
theorem BarrierState.DaemonOk.between {N : ℕ} {s : BarrierState}
    (hrun : (s.tdata 0).running = true) (hreq : (s.tdata 0).req ≠ some false)
    (hout : s.pc 0 = .out) (hfin : (s.tdata 0).next = (s.tdata 0).prev) (hn : ¬ s.pos.isOpen) :
    s.DaemonOk N := by
  have hne : ∀ p : DaemonPos, p.isOpen → s.pos ≠ p := fun p hp he => hn (he ▸ hp)
  exact ⟨hrun, hreq, by simp [hout], fun _ => hout, fun _ => hfin,
    fun i he => absurd he (hne _ trivial), fun he => absurd he (hne _ trivial),
    fun he => absurd he (hne _ trivial), fun _ _ he => absurd he (hne _ trivial)⟩

/-- The daemon's next place in the barrier. -/
theorem BarrierState.DaemonOk.inSync {N : ℕ} {s s' : BarrierState} (h : s.DaemonOk N)
    (hs : s.pos = .sync) (hpos : s'.pos = .sync) (hround : s'.round = s.round)
    (htdata : s'.tdata 0 = s.tdata 0) {p : BarrierPc} (hpc : s'.pc 0 = p)
    (hp : p ≠ .dead ∧ p ≠ .out) (hmark : p.mark (s.tdata 0) = s.round)
    (hback : ∀ ok S, p = .returned ok S ∨ p = .leaving ok S →
      s'.seq ≠ s.round ∧ .returned 0 s.round ok ∈ s'.log) : s'.DaemonOk N := by
  have hsync := h.sync hs
  constructor <;> simp only [hpos, hround, htdata, hpc]
  case running => exact h.running
  case req => exact h.req
  case alive => exact hp.1
  case out => exact fun hn => absurd rfl hn
  case finished => exact fun hn => absurd trivial hn
  case give => nofun
  case served => nofun
  case sync => exact fun _ => ⟨hsync.1, hsync.2.1, hp.2, .inr hmark⟩
  case back => exact fun ok S _ hb => hback ok S hb

/-- The part of the invariant that does not look at the daemon's position. -/
structure RoundInv (N : ℕ) (s : BarrierState) : Prop where
  given : ∀ t S, .given t S ∈ s.log → t < N ∧ 0 < S ∧ S ≤ s.seq ∧ (S = s.round ∨ S + 2 < s.round)
  decremented : ∀ t S, .decremented t S ∈ s.log → .given t S ∈ s.log
  returned : ∀ t S ok, .returned t S ok ∈ s.log → .given t S ∈ s.log
  lost : ∀ t S, .returned t S false ∈ s.log → s.seq ≠ S
  won : ∀ t S, .given t S ∈ s.log → s.seq = S + 1 → s.Won S
  safe : BarrierSafe s
  next : ∀ t, (s.tdata t).next = 0 ∨ .given t (s.tdata t).next ∈ s.log
  mark : ∀ t, s.pc t ≠ .dead → (s.pc t).mark (s.tdata t) ≤ (s.tdata t).next ∧
    ((s.pc t).mark (s.tdata t) < (s.tdata t).next → .decremented t (s.tdata t).next ∉ s.log)
  pcs : ∀ t, s.PcOk t (s.pc t)

/-- The invariant of the barrier. -/
structure BarrierInv (N : ℕ) (s : BarrierState) : Prop extends RoundInv N s where
  range : s.pos ≠ .armed → s.round ≤ s.seq ∧ s.seq ≤ s.round + 2
  armed : s.pos = .armed → ∀ t, .given t s.round ∉ s.log
  closed : ¬ s.pos.isOpen → ∀ t S, .given t S ∈ s.log → s.seq ≠ S
  positive : s.pos = .armed ∨ s.pos.isOpen → 0 < s.round
  opened : s.pos.isOpen → s.seq = s.round ∨ ∃ t, .given t s.round ∈ s.log
  members : s.pos.isOpen → ∀ t, .given t s.round ∈ s.log → (s.tdata t).running = true
  handed : ∀ i, s.pos = .give i → ∀ t, .given t s.round ∈ s.log → t < i
  count : s.pos = .armed ∨ (s.pos.isOpen ∧ s.seq = s.round) →
    s.cnt + s.nrDecremented N = s.nrRunning N
  full : s.pos.isOpen → s.Won s.round ∨ (s.seq = s.round ∧ ∃ t, s.pc t = .last s.round) →
    ∀ t < N, (s.tdata t).running = true → .decremented t s.round ∈ s.log
  single : s.pos.isOpen → s.seq = s.round → ∀ t u, s.pc t = .last s.round →
    s.pc u = .last s.round → t = u
  scan : ∀ i c, s.pos = .scan i c ∨ s.pos = .scanKill i c → c = s.nrRunning i
  polls : ∀ t S, s.pc t = .polling S ∨ s.pc t = .expired S → s.seq = S + 1 → s.mayPoll t
  alive : ¬ s.pos.scanning → ∀ t, 0 < (s.tdata t).next → (s.tdata t).next = s.round →
    (s.tdata t).running = true
  victims : (∀ i c, s.pos = .scanKill i c → i ≠ 0) ∧ ∀ i ∈ s.outer, i ≠ 0
  daemon : s.DaemonOk N

theorem RoundInv.setPos {N : ℕ} {s : BarrierState} (h : RoundInv N s) (pos : DaemonPos)
    (outer : List ℕ) : RoundInv N { s with pos := pos, outer := outer } :=
  ⟨h.given, h.decremented, h.returned, h.lost, h.won, h.safe, h.next, h.mark, h.pcs⟩

/-- A thread's own data and place are replaced. -/
theorem RoundInv.setThread {N : ℕ} {s : BarrierState} (h : RoundInv N s) {t : ℕ} {x : SyncTdata}
    {p : BarrierPc} (hnext : x.next = 0 ∨ .given t x.next ∈ s.log)
    (hmark : p ≠ .dead → p.mark x ≤ x.next ∧
      (p.mark x < x.next → .decremented t x.next ∉ s.log))
    (hpc : (s.setTdata t x).PcOk t p) : RoundInv N ((s.setTdata t x).goto t p) where
  given := h.given
  decremented := h.decremented
  returned := h.returned
  lost := h.lost
  won := h.won
  safe := h.safe
  next := fun u => by
    by_cases hu : u = t
    · subst hu
      simpa [BarrierState.goto, BarrierState.setTdata] using hnext
    · simpa [BarrierState.goto, BarrierState.setTdata, hu] using h.next u
  mark := fun u => by
    by_cases hu : u = t
    · subst hu
      simpa [BarrierState.goto, BarrierState.setTdata] using hmark
    · simpa [BarrierState.goto, BarrierState.setTdata, hu] using h.mark u
  pcs := fun u => by
    by_cases hu : u = t
    · subst hu
      simp only [BarrierState.goto, Function.update_self]
      exact hpc
    · have hpu : ((s.setTdata t x).goto t p).pc u = s.pc u := Function.update_of_ne hu ..
      rw [hpu]
      exact (h.pcs u).of_others (congrArg _ (Function.update_of_ne hu ..)).ge
        (congrArg _ (Function.update_of_ne hu ..)) (fun _ he => he) (fun _ he => he)
        (fun _ _ hw => hw) (fun _ _ hw => hw)

/-- The state of a thread changes, but not its sequence numbers. -/
theorem RoundInv.setState {N : ℕ} {s : BarrierState} (h : RoundInv N s) {t : ℕ} {x : SyncTdata}
    (hnext : x.next = (s.tdata t).next) (hprev : x.prev = (s.tdata t).prev) :
    RoundInv N ((s.setTdata t x).goto t (s.pc t)) := by
  have hmark : (s.pc t).mark x = (s.pc t).mark (s.tdata t) := by
    cases s.pc t <;> simp [BarrierPc.mark, hprev]
  refine h.setThread ?_ ?_ ?_
  · rw [hnext]
    exact h.next t
  · rw [hmark, hnext]
    exact h.mark t
  · exact (h.pcs t).of_others (by simp [BarrierState.setTdata, hnext])
      (by simp [BarrierState.setTdata, hprev]) (fun _ he => he) (fun _ he => he)
      (fun _ _ hw => hw) (fun _ _ hw => hw)

section Return
variable {N : ℕ} {s : BarrierState} {t S q : ℕ} {ok : Bool}

theorem won_ret (S' : ℕ) :
    ({ s with seq := q }.ret t S ok).Won S' ↔ s.Won S' ∨ (S' = S ∧ ok = true) := by
  simp only [BarrierState.Won, BarrierState.ret, BarrierState.record, BarrierState.goto,
    List.mem_cons, BarrierEvent.returned.injEq]
  constructor
  · rintro ⟨u, ⟨-, hS, hok⟩ | hu⟩
    · exact .inr ⟨hS, hok.symm⟩
    · exact .inl ⟨u, hu⟩
  · rintro (⟨u, hu⟩ | ⟨hS, hok⟩)
    · exact ⟨u, .inr hu⟩
    · exact ⟨t, .inl ⟨rfl, hS, hok.symm⟩⟩

/-- `tasvir_barrier_wait` returns to thread `t`, with `q` in `barrier_seq`. -/
theorem RoundInv.ret (h : RoundInv N s) (hg : .given t S ∈ s.log) (hseq : s.seq ≤ q)
    (hmark : S ≤ (s.tdata t).next ∧
      (S < (s.tdata t).next → .decremented t (s.tdata t).next ∉ s.log))
    (hlost : ∀ u S', .returned u S' false ∈ s.log ∨ (S' = S ∧ ok = false) → q ≠ S')
    (hwon : ∀ u S', .given u S' ∈ s.log → q = S' + 1 → s.Won S' ∨ (S' = S ∧ ok = true))
    (hyes : ok = true → ∀ u, .given u S ∈ s.log →
      .decremented u S ∈ s.log ∧ .returned u S false ∉ s.log)
    (hno : ok = false → ¬ s.Won S)
    (hlast : ∀ u S', u ≠ t → s.pc u = .last S' → ¬ (S' = S ∧ ok = true))
    (hpolls : ∀ u S', u ≠ t → s.pc u = .polling S' ∨ s.pc u = .expired S' →
      s.Won S' ∨ (S' = S ∧ ok = true) → q = S' + 1) :
    RoundInv N ({ s with seq := q }.ret t S ok) := by
  constructor
  case given =>
    intro u S' hu
    have h1 := h.given u S' (by simpa [BarrierState.ret, BarrierState.record, BarrierState.goto] using hu)
    exact ⟨h1.1, h1.2.1, h1.2.2.1.trans hseq, h1.2.2.2⟩
  case decremented =>
    intro u S' hu
    simp only [BarrierState.ret, BarrierState.record, BarrierState.goto, List.mem_cons,
      reduceCtorEq, false_or] at hu ⊢
    exact h.decremented u S' hu
  case returned =>
    intro u S' ok' hu
    simp only [BarrierState.ret, BarrierState.record, BarrierState.goto, List.mem_cons,
      reduceCtorEq, false_or, BarrierEvent.returned.injEq] at hu ⊢
    rcases hu with ⟨rfl, rfl, -⟩ | hu
    · exact hg
    · exact h.returned u S' ok' hu
  case lost =>
    intro u S' hu
    simp only [BarrierState.ret, BarrierState.record, BarrierState.goto, List.mem_cons,
      BarrierEvent.returned.injEq] at hu
    exact hlost u S' (hu.symm.imp_right fun ⟨_, hS, hok⟩ => ⟨hS, hok.symm⟩)
  case won =>
    intro u S' hu hq
    rw [won_ret]
    exact hwon u S' (by simpa [BarrierState.ret, BarrierState.record, BarrierState.goto] using hu) hq
  case safe =>
    -- `hyes` and `hno` exclude that two threads return differently
    intro t' S' ht' u hu
    have hw : s.Won S' ∨ (S' = S ∧ ok = true) := won_ret S' |>.mp ⟨t', ht'⟩
    simp only [BarrierState.ret, BarrierState.record, BarrierState.goto, List.mem_cons,
      reduceCtorEq, false_or, BarrierEvent.returned.injEq, not_or] at hu ⊢
    have h1 : .decremented u S' ∈ s.log ∧ .returned u S' false ∉ s.log := by
      rcases hw with ⟨v, hv⟩ | ⟨rfl, hok⟩
      · exact h.safe v S' hv u hu
      · exact hyes hok u hu
    refine ⟨h1.1, ?_, h1.2⟩
    rintro ⟨-, rfl, hok⟩
    rcases hw with hw | ⟨-, hok'⟩
    · exact hno hok.symm hw
    · rw [hok'] at hok
      cases hok
  case next =>
    intro u
    simpa [BarrierState.ret, BarrierState.record, BarrierState.goto] using h.next u
  case mark =>
    intro u
    by_cases hu : u = t
    · subst hu
      simpa [BarrierState.ret, BarrierState.record, BarrierState.goto, BarrierPc.mark] using hmark
    · simpa [BarrierState.ret, BarrierState.record, BarrierState.goto, hu] using h.mark u
  case pcs =>
    intro u
    by_cases hu : u = t
    · subst hu
      simp [BarrierState.ret, BarrierState.record, BarrierState.goto, BarrierState.PcOk]
    · have hpu : ({ s with seq := q }.ret t S ok).pc u = s.pc u := Function.update_of_ne hu ..
      rw [hpu]
      refine (h.pcs u).of_others le_rfl rfl (fun _ he => List.mem_cons_of_mem _ he) (fun S' hd => ?_)
        (fun S' hc hw => ?_) (fun S' hc _ hw => ?_)
      · simpa [BarrierState.ret, BarrierState.record, BarrierState.goto] using hd
      · rw [won_ret, not_or]
        exact ⟨hw, hlast u S' hu hc⟩
      · exact hpolls u S' hu hc ((won_ret S').mp hw)

/-- A thread decrements the counter. -/
theorem RoundInv.fetchSub (h : RoundInv N s) {n : ℤ} {p : BarrierPc} (hpc : s.pc t = .ready S)
    (hp : p = .last S ∨ p = .polling S) :
    RoundInv N (({ s with cnt := n }.record (.decremented t S)).goto t p) := by
  have hpt := h.pcs t
  rw [hpc] at hpt
  obtain ⟨hg, hprev, hnew⟩ := hpt
  -- a won round has the decrement of every thread, this one's is still to come
  have hnw : ¬ s.Won S := fun ⟨v, hv⟩ => hnew (h.safe v S hv t hg).1
  have hwon : ∀ S', (({ s with cnt := n }.record (.decremented t S)).goto t p).Won S' ↔ s.Won S' := by
    intro S'
    simp [BarrierState.Won, BarrierState.record, BarrierState.goto]
  have hmark : p.mark (s.tdata t) = S := by
    rcases hp with rfl | rfl <;> rfl
  constructor
  case given =>
    intro u S' hu
    exact h.given u S' (by simpa [BarrierState.record, BarrierState.goto] using hu)
  case decremented =>
    intro u S' hu
    simp only [BarrierState.record, BarrierState.goto, List.mem_cons, reduceCtorEq, false_or,
      BarrierEvent.decremented.injEq] at hu ⊢
    rcases hu with ⟨rfl, rfl⟩ | hu
    · exact hg
    · exact h.decremented u S' hu
  case returned =>
    intro u S' ok' hu
    simp only [BarrierState.record, BarrierState.goto, List.mem_cons, reduceCtorEq,
      false_or] at hu ⊢
    exact h.returned u S' ok' hu
  case lost =>
    intro u S' hu
    exact h.lost u S' (by simpa [BarrierState.record, BarrierState.goto] using hu)
  case won =>
    intro u S' hu hq
    exact (hwon S').mpr (h.won u S' (by simpa [BarrierState.record, BarrierState.goto] using hu) hq)
  case safe =>
    intro v S' hv u hu
    simp only [BarrierState.record, BarrierState.goto, List.mem_cons, reduceCtorEq,
      false_or] at hv hu ⊢
    exact (h.safe v S' hv u hu).imp .inr id
  case next =>
    intro u
    simpa [BarrierState.record, BarrierState.goto] using h.next u
  case mark =>
    intro u
    by_cases hu : u = t
    · subst hu
      have h1 := h.mark u (by simp [hpc])
      rw [hpc] at h1
      intro _
      simp only [BarrierState.record, BarrierState.goto, Function.update_self, hmark,
        List.mem_cons, BarrierEvent.decremented.injEq, not_or]
      exact ⟨h1.1, fun hlt => ⟨fun he => absurd he.2 hlt.ne', h1.2 hlt⟩⟩
    · simpa [BarrierState.record, BarrierState.goto, hu] using h.mark u
  case pcs =>
    intro u
    by_cases hu : u = t
    · subst hu
      have hpu : (({ s with cnt := n }.record (.decremented u S)).goto u p).pc u = p :=
        Function.update_self ..
      have hmem : .decremented u S ∈ (({ s with cnt := n }.record (.decremented u S)).goto u p).log :=
        List.mem_cons_self ..
      rw [hpu]
      rcases hp with rfl | rfl
      · exact ⟨List.mem_cons_of_mem _ hg, hprev, hmem, fun hw => hnw ((hwon S).mp hw)⟩
      · exact ⟨List.mem_cons_of_mem _ hg, hprev, hmem, fun hw => absurd ((hwon S).mp hw) hnw⟩
    · have hpu : (({ s with cnt := n }.record (.decremented t S)).goto t p).pc u = s.pc u :=
        Function.update_of_ne hu ..
      rw [hpu]
      refine (h.pcs u).of_others le_rfl rfl (fun _ he => List.mem_cons_of_mem _ he) (fun S' hd => ?_)
        (fun S' _ hw => (hwon S').not.mpr hw) (fun S' _ hw hw' => hw ((hwon S').mp hw'))
      simpa [BarrierState.record, BarrierState.goto, hu] using hd

/-- The next sequence number is written to slot `i`. -/
theorem RoundInv.give (h : RoundInv N s) {i : ℕ} (hi : i < N) (hpos : 0 < s.round)
    (hseq : s.round ≤ s.seq) (hnew : .given i s.round ∉ s.log) (hnw : ¬ s.Won s.round)
    (hne : s.seq ≠ s.round + 1) :
    RoundInv N ((s.setTdata i { s.tdata i with next := s.round }).record (.given i s.round)) := by
  have hle : ∀ u, (s.tdata u).next ≤ s.round := by
    intro u
    rcases h.next u with h0 | hg
    · omega
    · have := (h.given _ _ hg).2.2.2
      omega
  have hnext : ∀ u, (s.tdata u).next ≤
      ((s.setTdata i { s.tdata i with next := s.round }).tdata u).next := by
    intro u
    by_cases hu : u = i
    · subst hu
      simpa [BarrierState.setTdata] using hle u
    · simp [BarrierState.setTdata, hu]
  have hprev : ∀ u, ((s.setTdata i { s.tdata i with next := s.round }).tdata u).prev =
      (s.tdata u).prev := by
    intro u
    by_cases hu : u = i
    · subst hu
      simp [BarrierState.setTdata]
    · simp [BarrierState.setTdata, hu]
  have hmem : ∀ {e}, e ∈ (s.setTdata i { s.tdata i with next := s.round }
      |>.record (.given i s.round)).log ↔ e = .given i s.round ∨ e ∈ s.log := by
    intro e
    simp [BarrierState.record, BarrierState.setTdata]
  have hwon : ∀ S', ((s.setTdata i { s.tdata i with next := s.round }).record
      (.given i s.round)).Won S' ↔ s.Won S' := by
    intro S'
    simp [BarrierState.Won, hmem]
  constructor
  case given =>
    intro u S' hu
    rcases hmem.mp hu with he | hu
    · cases he
      exact ⟨hi, hpos, hseq, .inl rfl⟩
    · exact h.given u S' hu
  case decremented =>
    intro u S' hu
    exact hmem.mpr (.inr (h.decremented u S' ((hmem.mp hu).resolve_left nofun)))
  case returned =>
    intro u S' ok' hu
    exact hmem.mpr (.inr (h.returned u S' ok' ((hmem.mp hu).resolve_left nofun)))
  case lost => exact fun u S' hu => h.lost u S' ((hmem.mp hu).resolve_left nofun)
  case won =>
    intro u S' hu hq
    rw [hwon]
    rcases hmem.mp hu with he | hu
    · cases he
      exact absurd hq hne
    · exact h.won u S' hu hq
  case safe =>
    intro v S' hv u hu
    have hv' := (hmem.mp hv).resolve_left nofun
    rcases hmem.mp hu with he | hu
    · cases he
      exact absurd ⟨v, hv'⟩ hnw
    · have h1 := h.safe v S' hv' u hu
      exact ⟨hmem.mpr (.inr h1.1), fun hl => h1.2 ((hmem.mp hl).resolve_left nofun)⟩
  case next =>
    intro u
    by_cases hu : u = i
    · subst hu
      simp [BarrierState.record, BarrierState.setTdata]
    · rcases h.next u with h0 | hg
      · exact .inl (by simpa [BarrierState.record, BarrierState.setTdata, hu] using h0)
      · exact .inr (by simpa [BarrierState.record, BarrierState.setTdata, hu] using hg)
  case mark =>
    intro u hd
    have h1 := h.mark u hd
    by_cases hu : u = i
    · subst hu
      -- the number is new to the thread
      have hm : (s.pc u).mark { s.tdata u with next := s.round } = (s.pc u).mark (s.tdata u) := by
        cases s.pc u <;> rfl
      have hdec : .decremented u s.round ∉ s.log := fun hd => hnew (h.decremented u _ hd)
      simp only [BarrierState.record, BarrierState.setTdata, Function.update_self, hm,
        List.mem_cons, reduceCtorEq, false_or]
      exact ⟨h1.1.trans (hle u), fun _ => hdec⟩
    · simpa [BarrierState.record, BarrierState.setTdata, hu] using h1
  case pcs =>
    intro u
    exact (h.pcs u).of_others (hnext u) (hprev u) (fun _ he => hmem.mpr (.inr he))
      (fun _ hd => (hmem.mp hd).resolve_left nofun) (fun S' _ hw => (hwon S').not.mpr hw)
      (fun S' _ hw hw' => hw ((hwon S').mp hw'))

end Return

namespace BarrierInv
variable {N : ℕ} {s : BarrierState}

theorem init : BarrierInv N .booted where
  given := by simp [BarrierState.booted]
  decremented := by simp [BarrierState.booted]
  returned := by simp [BarrierState.booted]
  lost := by simp [BarrierState.booted]
  won := by simp [BarrierState.booted]
  safe := by simp [BarrierState.booted, BarrierSafe]
  next := fun t => .inl (by simp only [BarrierState.booted]; split <;> rfl)
  mark := fun t _ => by
    simp only [BarrierState.booted]
    split <;> simp [BarrierPc.mark]
  pcs := fun t => by
    simp only [BarrierState.booted]
    split <;> trivial
  range := by simp [BarrierState.booted]
  armed := by simp [BarrierState.booted]
  closed := by simp [BarrierState.booted]
  positive := by simp [BarrierState.booted, DaemonPos.isOpen]
  opened := by simp [BarrierState.booted, DaemonPos.isOpen]
  members := by simp [BarrierState.booted]
  handed := by simp [BarrierState.booted]
  count := by simp [BarrierState.booted, DaemonPos.isOpen]
  full := by simp [BarrierState.booted, DaemonPos.isOpen]
  single := by simp [BarrierState.booted, DaemonPos.isOpen]
  scan := by simp [BarrierState.booted]
  polls := fun t S h => by
    simp only [BarrierState.booted] at h
    split at h <;> simp at h
  alive := fun _ t h => by
    simp only [BarrierState.booted] at h
    split at h <;> cases h
  victims := by simp [BarrierState.booted]
  daemon := by constructor <;> simp [BarrierState.booted]

/-- Between two rounds the daemon moves on, and one thread's data may change. -/
theorem moveThread (h : BarrierInv N s) (t : ℕ) (x : SyncTdata) (p : BarrierPc) (pos : DaemonPos)
    (outer : List ℕ) (hs : ¬ s.pos.isOpen) (ha : s.pos ≠ .armed) (hn : ¬ pos.isOpen)
    (hn' : pos ≠ .armed) (hr : RoundInv N ((s.setTdata t x).goto t p))
    (hscan : ∀ i c, pos = .scan i c ∨ pos = .scanKill i c → c = (s.setTdata t x).nrRunning i)
    (hpolls : ∀ u S, ((s.setTdata t x).goto t p).pc u = .polling S ∨
      ((s.setTdata t x).goto t p).pc u = .expired S → s.seq = S + 1 →
      { s with pos := pos, outer := outer }.mayPoll u)
    (halive : ¬ pos.scanning → ¬ s.pos.scanning ∧
      (0 < x.next → x.next = s.round → x.running = true))
    (hout : (∀ i c, pos = .scanKill i c → i ≠ 0) ∧ ∀ i ∈ outer, i ≠ 0)
    (hd : t = 0 → x.running = true ∧ x.req ≠ some false ∧ p = .out ∧ x.next = x.prev) :
    BarrierInv N { (s.setTdata t x).goto t p with pos := pos, outer := outer } where
  toRoundInv := hr.setPos pos outer
  range := fun _ => h.range ha
  -- between two rounds the clauses about an armed or open one are void
  armed := fun hp => absurd hp hn'
  closed := fun _ => h.closed hs
  positive := fun hp => absurd hp (by simp [hn, hn'])
  opened := fun hp => absurd hp hn
  members := fun hp => absurd hp hn
  handed := fun i hp => absurd (by rw [show pos = .give i from hp]; trivial) hn
  count := fun hp => absurd hp (by simp [hn, hn'])
  full := fun hp => absurd hp hn
  single := fun hp => absurd hp hn
  scan := hscan
  polls := hpolls
  alive := by
    intro hp u h0 h1
    obtain ⟨hsn, hx⟩ := halive hp
    by_cases hu : u = t
    · subst hu
      simp only [BarrierState.goto, BarrierState.setTdata, Function.update_self] at h0 h1 ⊢
      exact hx h0 h1
    · simp only [BarrierState.goto, BarrierState.setTdata, Function.update_of_ne hu] at h0 h1 ⊢
      exact h.alive hsn u h0 h1
  victims := hout
  daemon := by
    have hd' := h.daemon
    have hpc : s.pc 0 = .out := hd'.out fun he => hs (he ▸ trivial)
    by_cases ht : t = 0
    · subst ht
      obtain ⟨h1, h2, h3, h4⟩ := hd rfl
      refine .between ?_ ?_ ?_ ?_ hn <;> simp [BarrierState.goto, BarrierState.setTdata, *]
    · have h0 : (0 : ℕ) ≠ t := Ne.symm ht
      refine .between ?_ ?_ ?_ ?_ hn <;>
        simp [BarrierState.goto, BarrierState.setTdata, h0, hd'.running, hd'.req, hpc,
          hd'.finished hs]

/-- Between two rounds the daemon moves on without any other effect. -/
theorem move (h : BarrierInv N s) (pos : DaemonPos) (outer : List ℕ) (hs : ¬ s.pos.isOpen)
    (ha : s.pos ≠ .armed) (hn : ¬ pos.isOpen) (hn' : pos ≠ .armed)
    (hscan : pos.scanning → pos = .scan 0 0)
    (hpolls : ∀ t S, s.pc t = .polling S ∨ s.pc t = .expired S → s.seq = S + 1 → s.mayPoll t →
      { s with pos := pos, outer := outer }.mayPoll t)
    (halive : ¬ pos.scanning → ¬ s.pos.scanning) (hout : ∀ i ∈ outer, i ≠ 0) :
    BarrierInv N { s with pos := pos, outer := outer } := by
  have hd := h.daemon
  have heq : (s.setTdata 0 (s.tdata 0)).goto 0 (s.pc 0) = s := by
    simp [BarrierState.setTdata, BarrierState.goto]
  have hscan0 : ∀ i c, pos = .scan i c ∨ pos = .scanKill i c → pos = .scan 0 0 := fun i c hp =>
    hscan (by rcases hp with hp | hp <;> rw [hp] <;> trivial)
  have h1 := h.moveThread 0 (s.tdata 0) (s.pc 0) pos outer hs ha
    hn hn' (heq.symm ▸ h.toRoundInv) ?_ ?_ (fun hp => ⟨halive hp, fun _ _ => hd.running⟩) ⟨?_, hout⟩
    (fun _ => ⟨hd.running, hd.req, hd.out fun he => hs (he ▸ trivial), hd.finished hs⟩)
  · rw [heq] at h1
    exact h1
  · intro i c hp
    have h0 := hscan0 i c hp
    rw [h0] at hp
    rcases hp with hp | hp <;> cases hp
    rfl
  · intro u S hu hseq
    rw [heq] at hu
    exact hpolls u S hu hseq (h.polls u S hu hseq)
  · intro i c hp
    have h0 := hscan0 i c (.inr hp)
    rw [h0] at hp
    cases hp

theorem next_le_round (h : BarrierInv N s) (t : ℕ) : (s.tdata t).next ≤ s.round := by
  rcases h.next t with h0 | hg
  · omega
  · have := (h.given _ _ hg).2.2.2
    omega

theorem polling (h : BarrierInv N s) {t S : ℕ} (hpc : s.pc t = .polling S ∨ s.pc t = .expired S) :
    .given t S ∈ s.log ∧ (s.tdata t).prev < S ∧ .decremented t S ∈ s.log ∧
      (s.Won S → s.seq = S + 1) ∧ S ≤ (s.tdata t).next := by
  have h1 := h.pcs t
  have h2 := h.mark t
  rcases hpc with hpc | hpc <;> rw [hpc] at h1 h2 <;>
    exact ⟨h1.1, h1.2.1, h1.2.2.1, h1.2.2.2, (h2 nofun).1⟩

/-- A thread that still polls after the success of its round is running, and the daemon
can see that it has not finished. -/
theorem polling_unfinished (h : BarrierInv N s) {t S : ℕ}
    (hpc : s.pc t = .polling S ∨ s.pc t = .expired S) (hseq : s.seq = S + 1)
    (hscan : ¬ s.pos.scanning) :
    t < N ∧ (s.tdata t).running = true ∧ (s.tdata t).next ≠ (s.tdata t).prev := by
  obtain ⟨hg, hprev, -, -, hnext⟩ := h.polling hpc
  have hpos : s.pos ≠ .armed := fun he => hscan (by rw [he]; trivial)
  have h1 := h.range hpos
  have h2 := h.given t S hg
  have h3 := h.next_le_round t
  exact ⟨h2.1, h.alive hscan t (by omega) (by omega), by omega⟩

theorem sched (h : BarrierInv N s) (hp : s.pre N .sched) (ho : s.orderly .sched) :
    BarrierInv N (s.next N .sched) := by
  replace hp : s.pos = .idle := hp
  refine h.move _ s.outer ?_ ?_ id nofun (fun _ => rfl) (fun t S hpc hseq h1 => ?_)
    (fun hn => absurd trivial hn) h.victims.2
  · rw [hp]
    exact id
  · rw [hp]
    nofun
  · -- in a kill the condition says it, and else no thread was left polling
    cases hout : s.outer with
    | nil => simp [BarrierState.mayPoll, hp, hout] at h1
    | cons j rest => exact absurd hseq (ho (by simp [hout]) t S hpc)

theorem await (h : BarrierInv N s) (hp : s.pre N .await) : BarrierInv N (s.next N .await) := by
  obtain ⟨i, hi, hiN, hdone⟩ := hp
  simp only [BarrierState.next, hi]
  have hopen : ¬ s.pos.isOpen := by
    rw [hi]
    exact id
  have hscan : ¬ s.pos.scanning := by
    rw [hi]
    exact id
  refine h.move _ s.outer hopen (by simp [hi]) ?_ ?_ ?_ (fun t S hpc hseq h1 => ?_)
    (fun _ => hscan) h.victims.2
  · split <;> exact id
  · split <;> nofun
  · split <;> exact False.elim
  · have hit : i ≤ t := by simpa [BarrierState.mayPoll, hi] using h1
    have h2 := h.polling_unfinished hpc hseq hscan
    have hne : i ≠ t := by
      intro he
      subst he
      exact h2.2.2 (hdone h2.1 h2.2.1)
    rw [if_pos (by omega)]
    simp only [BarrierState.mayPoll]
    omega

theorem giveUp (h : BarrierInv N s) (hp : s.pre N .giveUp) : BarrierInv N (s.next N .giveUp) := by
  obtain ⟨i, hi, -, -, hne⟩ := hp
  simp only [BarrierState.next, hi]
  have hopen : ¬ s.pos.isOpen := by
    rw [hi]
    exact id
  refine h.move _ _ hopen (by simp [hi]) id nofun False.elim (fun t S _ _ h1 => ?_) (fun _ => ?_) ?_
  · simpa [BarrierState.mayPoll, hi] using h1
  · rw [hi]
    exact id
  · -- the daemon itself has finished the round
    rw [List.forall_mem_cons]
    refine ⟨fun h0 => hne ?_, h.victims.2⟩
    rw [h0]
    exact h.daemon.finished hopen

/-- A thread moves on without any effect on the others. -/
theorem setThread (h : BarrierInv N s) {t : ℕ} {x : SyncTdata} {p : BarrierPc}
    (hrun : x.running = (s.tdata t).running) (hnext : x.next = (s.tdata t).next)
    (hmark : p ≠ .dead → p.mark x ≤ x.next ∧
      (p.mark x < x.next → .decremented t x.next ∉ s.log))
    (hpc : (s.setTdata t x).PcOk t p) (hlast : ∀ S, p = .last S → s.pc t = .last S)
    (hpoll : ∀ S, p = .polling S ∨ p = .expired S → s.seq = S + 1 → s.mayPoll t)
    (hd : t = 0 → ((s.setTdata t x).goto t p).DaemonOk N) :
    BarrierInv N ((s.setTdata t x).goto t p) := by
  -- `running` and `next` are as before for everybody
  have hr : ∀ u, (Function.update s.tdata t x u).running = (s.tdata u).running := by
    intro u
    by_cases hu : u = t
    · subst hu
      rw [Function.update_self, hrun]
    · rw [Function.update_of_ne hu]
  have hn : ∀ u, (Function.update s.tdata t x u).next = (s.tdata u).next := by
    intro u
    by_cases hu : u = t
    · subst hu
      rw [Function.update_self, hnext]
    · rw [Function.update_of_ne hu]
  have hcount : ∀ n, ((s.setTdata t x).goto t p).nrRunning n = s.nrRunning n := fun n => by
    simp only [BarrierState.nrRunning, BarrierState.goto, BarrierState.setTdata, hr]
  have hlast' : ∀ u S, ((s.setTdata t x).goto t p).pc u = .last S → s.pc u = .last S := by
    intro u S hu
    by_cases hut : u = t
    · subst hut
      exact hlast S (by simpa [BarrierState.goto] using hu)
    · simpa [BarrierState.goto, BarrierState.setTdata, hut] using hu
  constructor
  case toRoundInv => exact h.toRoundInv.setThread (by simpa only [hnext] using h.next t) hmark hpc
  case range => exact h.range
  case armed => exact h.armed
  case closed => exact h.closed
  case positive => exact h.positive
  case opened => exact h.opened
  case members => exact fun hp u hg => (hr u).trans (h.members hp u hg)
  case handed => exact h.handed
  case count => exact fun hp => (h.count hp).trans (by rw [hcount])
  case full =>
    intro hp hw u hu hrun'
    exact h.full hp (hw.imp_right fun ⟨hseq, v, hv⟩ => ⟨hseq, v, hlast' v _ hv⟩) u hu
      ((hr u).symm.trans hrun')
  case single => exact fun hp hseq u v hu hv => h.single hp hseq u v (hlast' u _ hu) (hlast' v _ hv)
  case scan => exact fun i c hp => (h.scan i c hp).trans (hcount i).symm
  case polls =>
    intro u S hu hseq
    by_cases hut : u = t
    · subst hut
      exact hpoll S (by simpa [BarrierState.goto] using hu) hseq
    · exact h.polls u S (by simpa [BarrierState.goto, BarrierState.setTdata, hut] using hu) hseq
  case alive => exact fun hp u h0 h1 =>
    (hr u).trans (h.alive hp u (by simpa [BarrierState.goto, BarrierState.setTdata, hn] using h0)
      ((hn u).symm.trans h1))
  case victims => exact h.victims
  case daemon =>
    by_cases ht : t = 0
    · exact hd ht
    · have h0 : (0 : ℕ) ≠ t := Ne.symm ht
      exact h.daemon.of_eq (Function.update_of_ne h0 ..) (Function.update_of_ne h0 ..) rfl rfl id
        (fun _ he => he)

theorem goto_eq (s : BarrierState) (t : ℕ) (p : BarrierPc) :
    s.goto t p = (s.setTdata t (s.tdata t)).goto t p := by
  simp [BarrierState.setTdata]

/-- A thread gets to its next place without any other effect. -/
theorem goto (h : BarrierInv N s) {t : ℕ} {p : BarrierPc}
    (hmark : p ≠ .dead → p.mark (s.tdata t) ≤ (s.tdata t).next ∧
      (p.mark (s.tdata t) < (s.tdata t).next → .decremented t (s.tdata t).next ∉ s.log))
    (hpc : s.PcOk t p) (hlast : ∀ S, p = .last S → s.pc t = .last S)
    (hpoll : ∀ S, p = .polling S ∨ p = .expired S → s.seq = S + 1 → s.mayPoll t)
    (hd : t = 0 → (s.goto t p).DaemonOk N) : BarrierInv N (s.goto t p) := by
  rw [goto_eq] at hd ⊢
  refine h.setThread rfl rfl hmark ?_ hlast hpoll hd
  simpa [BarrierState.setTdata] using hpc

/-- `tasvir_barrier_wait` returns; it may have closed the round by an exchange. -/
theorem ret (h : BarrierInv N s) {t S q : ℕ} {ok : Bool}
    (hr : RoundInv N ({ s with seq := q }.ret t S ok))
    (hq : q = s.seq ∨
      (s.pos.isOpen ∧ .given t s.round ∈ s.log ∧ s.round < q ∧ q ≤ s.round + 2))
    (hfull : s.pos.isOpen → ok = true → S = s.round →
      ∀ u < N, (s.tdata u).running = true → .decremented u s.round ∈ s.log)
    (hd : t = 0 → s.pos = .sync ∧ S = s.round ∧ q ≠ s.round) :
    BarrierInv N ({ s with seq := q }.ret t S ok) := by
  have hlog : ({ s with seq := q }.ret t S ok).log = .returned t S ok :: s.log := rfl
  -- only `t` has moved, to a place that no clause about places speaks of
  have hpc : ∀ u p, ({ s with seq := q }.ret t S ok).pc u = p → p = .returned ok S ∨ s.pc u = p := by
    intro u p hp
    by_cases hu : u = t
    · subst hu
      exact .inl (by simpa [BarrierState.ret, BarrierState.goto] using hp.symm)
    · exact .inr (by simpa [BarrierState.ret, BarrierState.record, BarrierState.goto, hu] using hp)
  have hgiven : ∀ u S', .given u S' ∈ ({ s with seq := q }.ret t S ok).log → .given u S' ∈ s.log :=
    fun u S' hu => by simpa [hlog] using hu
  constructor
  case toRoundInv => exact hr
  case range =>
    intro hp
    rcases hq with rfl | ⟨-, -, h1, h2⟩
    · exact h.range hp
    · exact ⟨h1.le, h2⟩
  case armed => exact fun hp u hu => h.armed hp u (hgiven _ _ hu)
  case closed =>
    intro hp u S' hu
    rcases hq with rfl | ⟨ho, -⟩
    · exact h.closed hp u S' (hgiven _ _ hu)
    · exact absurd ho hp
  case positive => exact h.positive
  case opened =>
    intro hp
    rcases hq with rfl | ⟨-, hg, -⟩
    · exact (h.opened hp).imp_right fun ⟨u, hu⟩ => ⟨u, List.mem_cons_of_mem _ hu⟩
    · exact .inr ⟨t, List.mem_cons_of_mem _ hg⟩
  case members => exact fun hp u hu => h.members hp u (hgiven _ _ hu)
  case handed => exact fun i hp u hu => h.handed i hp u (hgiven _ _ hu)
  case count =>
    intro hp
    have hcount : ({ s with seq := q }.ret t S ok).nrDecremented N = s.nrDecremented N := by
      simp [BarrierState.nrDecremented, BarrierState.ret, BarrierState.record, BarrierState.goto]
    rw [hcount]
    rcases hq with rfl | ⟨ho, -, h1, -⟩
    · exact h.count hp
    · rcases hp with hp | ⟨-, hp⟩
      · rw [show s.pos = .armed from hp] at ho
        cases ho
      · exact absurd hp h1.ne'
  case full =>
    -- the round is won now if it was before, or through this return
    intro hp hw u hu hrun
    rw [hlog]
    apply List.mem_cons_of_mem
    rw [won_ret] at hw
    rcases hw with (hw | ⟨hS, hok⟩) | ⟨hseq, v, hv⟩
    · exact h.full hp (.inl hw) u hu hrun
    · exact hfull hp hok hS.symm u hu hrun
    · rcases hq with rfl | ⟨-, -, h1, -⟩
      · exact h.full hp (.inr ⟨hseq, v, (hpc v _ hv).resolve_left nofun⟩) u hu hrun
      · exact absurd hseq h1.ne'
  case single =>
    intro hp hseq u v hu hv
    rcases hq with rfl | ⟨-, -, h1, -⟩
    · exact h.single hp hseq u v ((hpc u _ hu).resolve_left nofun) ((hpc v _ hv).resolve_left nofun)
    · exact absurd hseq h1.ne'
  case scan => exact h.scan
  case polls =>
    intro u S' hu hseq
    rcases hq with rfl | ⟨ho, -⟩
    · exact h.polls u S' (hu.imp (fun hu => (hpc u _ hu).resolve_left nofun)
        (fun hu => (hpc u _ hu).resolve_left nofun)) hseq
    · revert ho
      simp only [BarrierState.mayPoll, BarrierState.ret, BarrierState.record, BarrierState.goto]
      cases s.pos <;> simp [DaemonPos.isOpen]
  case alive => exact h.alive
  case victims => exact h.victims
  case daemon =>
    by_cases ht : t = 0
    · subst ht
      obtain ⟨hs, hS, hne⟩ := hd rfl
      refine h.daemon.inSync (p := .returned ok S) hs hs rfl rfl
        (by simp [BarrierState.ret, BarrierState.goto]) ⟨nofun, nofun⟩ hS ?_
      rintro ok' S' (he | he) <;> cases he
      refine ⟨hne, ?_⟩
      rw [← hS]
      exact List.mem_cons_self ..
    · have h0 : (0 : ℕ) ≠ t := Ne.symm ht
      refine h.daemon.of_eq rfl (Function.update_of_ne h0 ..) rfl rfl ?_
        (fun _ he => List.mem_cons_of_mem _ he)
      rcases hq with rfl | ⟨-, -, h1, -⟩
      · exact id
      · exact fun _ => h1.ne'

/-- The daemon is at the sequence number of the round. -/
theorem daemon_mark (h : BarrierInv N s) {t S : ℕ} (hpc : s.pc t ≠ .out) (he : s.pc t ≠ .entered)
    (hS : (s.pc t).mark (s.tdata t) = S) (ht : t = 0) : s.pos = .sync ∧ S = s.round := by
  subst ht
  have hs : s.pos = .sync := by
    by_contra hn
    exact hpc (h.daemon.out hn)
  exact ⟨hs, hS.symm.trans ((h.daemon.sync hs).2.2.2.resolve_left he)⟩

/-- A thread is turned away from a round that is closed and has not succeeded. -/
theorem turnedAway (h : BarrierInv N s) {t S : ℕ} (hg : .given t S ∈ s.log)
    (hmark : S ≤ (s.tdata t).next ∧
      (S < (s.tdata t).next → .decremented t (s.tdata t).next ∉ s.log))
    (hne : s.seq ≠ S) (hno : ¬ s.Won S) (hd : t = 0 → s.pos = .sync ∧ S = s.round) :
    BarrierInv N (s.ret t S false) := by
  refine h.ret (q := s.seq) ?_ (.inl rfl) nofun
    (fun ht => ⟨(hd ht).1, (hd ht).2, fun he => hne (he.trans (hd ht).2.symm)⟩)
  refine h.toRoundInv.ret hg le_rfl hmark ?_ (fun u S' hu hq => .inl (h.won u S' hu hq)) nofun
    (fun _ => hno) (fun _ _ _ _ => nofun) ?_
  · rintro u S' (hu | ⟨rfl, -⟩)
    · exact h.lost u S' hu
    · exact hne
  · rintro u S' - hu (hw | ⟨-, hok⟩)
    · exact (h.polling hu).2.2.2.1 hw
    · cases hok

/-- A thread that polls is let through after another one has been. -/
theorem letThrough (h : BarrierInv N s) {t S : ℕ} (hg : .given t S ∈ s.log)
    (hmark : S ≤ (s.tdata t).next ∧
      (S < (s.tdata t).next → .decremented t (s.tdata t).next ∉ s.log))
    (hseq : s.seq = S + 1) (hd : t = 0 → s.pos = .sync ∧ S = s.round) :
    BarrierInv N (s.ret t S true) := by
  have hw : s.Won S := h.won t S hg hseq
  refine h.ret (q := s.seq) ?_ (.inl rfl) (fun hp _ hS => h.full hp (.inl (hS ▸ hw)))
    (fun ht => ⟨(hd ht).1, (hd ht).2, by have := (hd ht).2; omega⟩)
  refine h.toRoundInv.ret hg le_rfl hmark ?_ (fun u S' hu hq => .inl (h.won u S' hu hq)) ?_
    nofun ?_ ?_
  · rintro u S' (hu | ⟨-, hok⟩)
    · exact h.lost u S' hu
    · cases hok
  · obtain ⟨v, hv⟩ := hw
    exact fun _ => h.safe v S hv
  · rintro u S' - hu ⟨rfl, -⟩
    have h1 := h.pcs u
    rw [hu] at h1
    exact h1.2.2.2 hw
  · rintro u S' - hu (hw' | ⟨rfl, -⟩)
    · exact (h.polling hu).2.2.2.1 hw'
    · exact hseq

/-- While `barrier_seq` is a number that was given out, it is the number of the open round. -/
theorem seq_open (h : BarrierInv N s) {t S : ℕ} (hg : .given t S ∈ s.log) (hseq : s.seq = S) :
    s.pos.isOpen ∧ S = s.round := by
  have ho : s.pos.isOpen := by
    by_contra hn
    exact h.closed hn t S hg hseq
  refine ⟨ho, ?_⟩
  have h1 := h.range (by rintro he; rw [he] at ho; exact ho)
  have h2 := h.given t S hg
  omega

/-- The exchange of the last thread: the round succeeds. -/
theorem win (h : BarrierInv N s) {t S : ℕ} (hpc : s.pc t = .last S) (hseq : s.seq = S) :
    BarrierInv N ({ s with seq := S + 1 }.ret t S true) := by
  have hp := h.pcs t
  rw [hpc] at hp
  obtain ⟨hg, hprev, hdec, hnw⟩ := hp
  have hm := h.mark t (by simp [hpc])
  rw [hpc] at hm
  obtain ⟨ho, hS⟩ := h.seq_open hg hseq
  have hall : ∀ u < N, (s.tdata u).running = true → .decremented u s.round ∈ s.log :=
    h.full ho (.inr ⟨hseq.trans hS, t, by rw [hpc, hS]⟩)
  refine h.ret ?_ (.inr ⟨ho, hS ▸ hg, by omega, by omega⟩) (fun _ _ _ => hall) (fun ht => ?_)
  · refine h.toRoundInv.ret hg (by omega) hm ?_ ?_ ?_ nofun ?_ ?_
    · rintro u S' (hu | ⟨-, hok⟩)
      · have h1 := (h.given u S' (h.returned u S' _ hu)).2.2.2
        omega
      · cases hok
    · intro u S' hu hq
      exact .inr ⟨by omega, rfl⟩
    · intro _ u hu
      have hrun := h.members ho u (hS ▸ hu)
      have hu' := hall u (h.given u S hu).1 hrun
      exact ⟨hS ▸ hu', fun hl => h.lost u S hl hseq⟩
    · rintro u S' hne hu ⟨rfl, -⟩
      exact hne (h.single ho (hseq.trans hS) u t (by rw [hu, hS]) (by rw [hpc, hS]))
    · rintro u S' - hu (hw | ⟨rfl, -⟩)
      · have h1 := (h.polling hu).2.2.2.1 hw
        have h2 := (h.given u S' (h.polling hu).1).2.2.2
        omega
      · rfl
  · have hd := h.daemon_mark (S := S) (by simp [hpc]) (by simp [hpc]) (by rw [hpc]; rfl) ht
    exact ⟨hd.1, hd.2, by omega⟩

/-- The exchange of a thread whose time is over: the round fails. -/
theorem timeout (h : BarrierInv N s) {t S : ℕ} (hpc : s.pc t = .expired S) (hseq : s.seq = S) :
    BarrierInv N ({ s with seq := S + 2 }.ret t S false) := by
  obtain ⟨hg, -, -, hw, -⟩ := h.polling (.inr hpc)
  have hm := h.mark t (by simp [hpc])
  rw [hpc] at hm
  obtain ⟨ho, hS⟩ := h.seq_open hg hseq
  refine h.ret ?_ (.inr ⟨ho, hS ▸ hg, by omega, by omega⟩) nofun (fun ht => ?_)
  · refine h.toRoundInv.ret hg (by omega) hm ?_ ?_ nofun ?_ (fun _ _ _ _ => nofun) ?_
    · rintro u S' (hu | ⟨rfl, -⟩)
      · have h1 := (h.given u S' (h.returned u S' _ hu)).2.2.2
        omega
      · omega
    · intro u S' hu hq
      have h1 := (h.given u S' hu).2.2.2
      omega
    · intro _ hw'
      have := hw hw'
      omega
    · rintro u S' - hu (hw' | ⟨-, hok⟩)
      · have h1 := (h.polling hu).2.2.2.1 hw'
        have h2 := (h.given u S' (h.polling hu).1).2.2.2
        omega
      · cases hok
  · have hd := h.daemon_mark (S := S) (by simp [hpc]) (by simp [hpc]) (by rw [hpc]; rfl) ht
    exact ⟨hd.1, hd.2, by omega⟩

/-- When as many have decremented the counter as are running, all of these have. -/
theorem all_decremented
    (hsub : ∀ t, .decremented t s.round ∈ s.log → (s.tdata t).running = true)
    (hcard : s.nrRunning N ≤ s.nrDecremented N) :
    ∀ t < N, (s.tdata t).running = true → .decremented t s.round ∈ s.log := by
  intro t ht hrun
  have hle : ((Finset.range N).filter fun t => BarrierEvent.decremented t s.round ∈ s.log) ⊆
      (Finset.range N).filter fun t => (s.tdata t).running = true := by
    intro u hu
    rw [Finset.mem_filter] at hu ⊢
    exact ⟨hu.1, hsub u hu.2⟩
  have heq := Finset.eq_of_subset_of_card_le hle hcard
  have hmem : t ∈ (Finset.range N).filter fun t => (s.tdata t).running = true :=
    Finset.mem_filter.mpr ⟨Finset.mem_range.mpr ht, hrun⟩
  rw [← heq] at hmem
  exact (Finset.mem_filter.mp hmem).2

/-- The counter after one more decrement. -/
theorem nrDecremented_fetchSub {t : ℕ} {p : BarrierPc} (ht : t < N)
    (hnew : .decremented t s.round ∉ s.log) :
    (({ s with cnt := s.cnt - 1 }.record (.decremented t s.round)).goto t p).nrDecremented N =
      s.nrDecremented N + 1 := by
  simp only [BarrierState.nrDecremented, BarrierState.record, BarrierState.goto, List.mem_cons,
    BarrierEvent.decremented.injEq, and_true]
  rw [← Finset.card_insert_of_notMem (s := (Finset.range N).filter fun u =>
    BarrierEvent.decremented u s.round ∈ s.log) (a := t) (by simp [hnew])]
  congr 1
  ext u
  simp only [Finset.mem_filter, Finset.mem_range, Finset.mem_insert]
  constructor
  · rintro ⟨hu, rfl | hd⟩
    · exact .inl rfl
    · exact .inr ⟨hu, hd⟩
  · rintro (rfl | ⟨hu, hd⟩)
    · exact ⟨ht, .inl rfl⟩
    · exact ⟨hu, .inr hd⟩

theorem fetchSub (h : BarrierInv N s) {t S : ℕ} (hpc : s.pc t = .ready S) (hS : S = s.round) :
    BarrierInv N (({ s with cnt := s.cnt - 1 }.record (.decremented t S)).goto t
      (if s.cnt = 1 then .last S else .polling S)) := by
  have hr := h.toRoundInv.fetchSub (n := s.cnt - 1) hpc
    (p := if s.cnt = 1 then .last S else .polling S) (by split <;> simp)
  have hp := h.pcs t
  rw [hpc] at hp
  obtain ⟨hg, hprev, hnew⟩ := hp
  have hnw : ¬ s.Won S := fun ⟨v, hv⟩ => hnew (h.safe v S hv t hg).1
  have htN : t < N := (h.given t S hg).1
  -- an earlier last thread would mean that `t` had decremented the counter
  have hnolast : s.pos.isOpen → s.seq = s.round → ∀ v, s.pc v ≠ .last s.round := by
    intro ho hseq v hv
    exact hnew (hS ▸ h.full ho (.inr ⟨hseq, v, hv⟩) t htN (h.members ho t (hS ▸ hg)))
  generalize hpn : (if s.cnt = 1 then BarrierPc.last S else BarrierPc.polling S) = p at hr ⊢
  have hlog : (({ s with cnt := s.cnt - 1 }.record (.decremented t S)).goto t p).log =
      .decremented t S :: s.log := rfl
  have hgiven : ∀ u S', .given u S' ∈ BarrierEvent.decremented t S :: s.log → .given u S' ∈ s.log :=
    fun u S' hu => by simpa using hu
  have hcount : s.pos = .armed ∨ (s.pos.isOpen ∧ s.seq = s.round) →
      s.cnt - 1 + (s.nrDecremented N + 1 : ℕ) = s.nrRunning N := by
    intro hp
    have := h.count hp
    push_cast
    omega
  constructor
  case toRoundInv => exact hr
  case range => exact h.range
  case armed => exact fun hp u hu => h.armed hp u (hgiven _ _ hu)
  case closed => exact fun hp u S' hu => h.closed hp u S' (hgiven _ _ hu)
  case positive => exact h.positive
  case opened =>
    exact fun hp => (h.opened hp).imp_right fun ⟨u, hu⟩ => ⟨u, List.mem_cons_of_mem _ hu⟩
  case members => exact fun hp u hu => h.members hp u (hgiven _ _ hu)
  case handed => exact fun i hp u hu => h.handed i hp u (hgiven _ _ hu)
  case count =>
    subst hS
    intro hp
    rw [nrDecremented_fetchSub htN hnew]
    exact hcount hp
  case full =>
    intro hp hw u hu hrun
    obtain ⟨hseq, v, hv⟩ := hw.resolve_left fun hw => hnw (by
      simpa [hS, BarrierState.Won, BarrierState.record, BarrierState.goto] using hw)
    obtain rfl : v = t := by
      by_contra hvt
      exact hnolast hp hseq v (by simpa [BarrierState.record, BarrierState.goto, hvt] using hv)
    have hone : s.cnt = 1 := by
      by_contra hn
      rw [if_neg hn] at hpn
      simp [BarrierState.goto, ← hpn] at hv
    -- as many have decremented the counter as are running
    have hcard := hcount (.inr ⟨hp, hseq⟩)
    subst hS
    refine all_decremented (fun w hw => ?_) ?_ u hu hrun
    · exact h.members hp w (hgiven _ _ (hr.decremented w _ hw))
    · rw [nrDecremented_fetchSub htN hnew]
      change s.nrRunning N ≤ _
      omega
  case single =>
    intro hp hseq u v hu hv
    have hall : ∀ w, (({ s with cnt := s.cnt - 1 }.record (.decremented t S)).goto t p).pc w =
        .last s.round → w = t := by
      intro w hw
      by_contra hwt
      exact hnolast hp hseq w (by simpa [BarrierState.record, BarrierState.goto, hwt] using hw)
    rw [hall u hu, hall v hv]
  case scan => exact h.scan
  case polls =>
    intro u S' hu hseq
    by_cases hut : u = t
    · subst hut
      have hS' : S' = S := by
        simp only [BarrierState.goto, Function.update_self, ← hpn] at hu
        split at hu
        · simp at hu
        · simpa [eq_comm] using hu
      subst hS'
      exact absurd (h.won u S' hg hseq) hnw
    · exact h.polls u S' (by simpa [BarrierState.record, BarrierState.goto, hut] using hu) hseq
  case alive => exact h.alive
  case victims => exact h.victims
  case daemon =>
    by_cases ht : t = 0
    · subst ht
      have hd := h.daemon_mark (S := S) (by simp [hpc]) (by simp [hpc]) (by rw [hpc]; rfl) rfl
      refine h.daemon.inSync (p := p) hd.1 hd.1 rfl rfl (by simp [BarrierState.goto]) ?_ ?_ ?_
      · rw [← hpn]
        split <;> exact ⟨nofun, nofun⟩
      · rw [← hpn]
        split <;> exact hd.2
      · rw [← hpn]
        split <;> nofun
    · have h0 : (0 : ℕ) ≠ t := Ne.symm ht
      exact h.daemon.of_eq rfl (Function.update_of_ne h0 ..) rfl rfl id
        (fun _ he => List.mem_cons_of_mem _ he)

/-- An application thread writes `prev_sync_seq` and is done. -/
theorem leave (h : BarrierInv N s) {t v : ℕ} {ok : Bool} (hpc : s.pc t = .leaving ok v)
    (ht : t ≠ 0) :
    BarrierInv N ((s.setTdata t { s.tdata t with prev := v }).goto t .out) := by
  have hm := h.mark t (by simp [hpc])
  rw [hpc] at hm
  exact h.setThread rfl rfl (fun _ => hm) trivial nofun nofun (fun h0 => absurd h0 ht)

/-- The daemon leaves the round: after a failure nobody polls for a success. -/
theorem daemon_leave (h : BarrierInv N s) {v : ℕ} {ok : Bool} (hpc : s.pc 0 = .leaving ok v) :
    BarrierInv N { (s.setTdata 0 { s.tdata 0 with prev := v }).goto 0 .out with
      pos := if ok then .await 0 else .idle } := by
  obtain ⟨hs, hv⟩ := h.daemon_mark (S := v) (by simp [hpc]) (by simp [hpc]) (by rw [hpc]; rfl) rfl
  obtain ⟨hne, hret⟩ := h.daemon.back ok v hs (.inr hpc)
  have hnext := (h.daemon.sync hs).2.1
  have hopen : s.pos.isOpen := by
    rw [hs]
    trivial
  have hrange := h.range (by simp [hs])
  have hround := h.toRoundInv.setThread (t := 0) (x := { s.tdata 0 with prev := v }) (p := .out)
    (h.next 0) (fun _ => by rw [BarrierPc.mark, hv, hnext]; exact ⟨le_rfl, fun hlt => absurd hlt (lt_irrefl _)⟩)
    trivial
  have hclosed : ¬ (if ok then DaemonPos.await 0 else .idle).isOpen := by
    split <;> exact id
  have hpos : ∀ p : DaemonPos, p ≠ .idle → (∀ i, p ≠ .await i) →
      (if ok then DaemonPos.await 0 else .idle) ≠ p := by
    intro p h1 h2
    split
    · exact (h2 0).symm
    · exact h1.symm
  constructor
  case toRoundInv => exact hround.setPos _ s.outer
  case range => exact fun _ => hrange
  case armed => exact fun hp => absurd hp (hpos _ nofun nofun)
  case closed =>
    intro _ u S hu
    have h1 := h.given u S hu
    change s.seq ≠ S
    omega
  case positive =>
    rintro (hp | hp)
    · exact absurd hp (hpos _ nofun nofun)
    · exact absurd hp hclosed
  case opened => exact fun hp => absurd hp hclosed
  case members => exact fun hp => absurd hp hclosed
  case handed => exact fun i hp => absurd hp (hpos _ nofun nofun)
  case count =>
    rintro (hp | ⟨hp, -⟩)
    · exact absurd hp (hpos _ nofun nofun)
    · exact absurd hp hclosed
  case full => exact fun hp => absurd hp hclosed
  case single => exact fun hp => absurd hp hclosed
  case scan =>
    rintro i c (hp | hp)
    · exact absurd hp (hpos _ nofun nofun)
    · exact absurd hp (hpos _ nofun nofun)
  case polls =>
    intro u S hu hseq
    have hu' : s.pc u = .polling S ∨ s.pc u = .expired S := by
      by_cases h0 : u = 0
      · subst h0
        simp [BarrierState.goto] at hu
      · simpa [BarrierState.goto, BarrierState.setTdata, h0] using hu
    cases ok with
    | true => exact Nat.zero_le u
    | false =>
      -- the number would have to be that of the round, which the daemon has lost
      have hg := (h.polling hu').1
      have h1 := h.given u S hg
      have hS : S = s.round := by
        change s.seq = S + 1 at hseq
        omega
      obtain ⟨w, hw⟩ := h.won u S hg hseq
      rw [← hS] at hret
      exact absurd hret (h.safe w S hw 0 (h.returned 0 S false hret)).2
  case alive =>
    intro _ u h0 h1
    have hscan : ¬ s.pos.scanning := by
      rw [hs]
      exact id
    by_cases hu : u = 0
    · subst hu
      simpa [BarrierState.goto, BarrierState.setTdata] using h.daemon.running
    · simp only [BarrierState.goto, BarrierState.setTdata, Function.update_of_ne hu] at h0 h1 ⊢
      exact h.alive hscan u h0 h1
  case victims => exact ⟨fun i c hp => absurd hp (hpos _ nofun nofun), h.victims.2⟩
  case daemon =>
    refine .between ?_ ?_ ?_ ?_ hclosed <;>
      simp [BarrierState.goto, BarrierState.setTdata, h.daemon.running, h.daemon.req, hnext, hv]

/-- A thread inside of the barrier gets to its next place. -/
theorem advance (h : BarrierInv N s) {t : ℕ} {p : BarrierPc} (hout : s.pc t ≠ .out)
    (hp : p ≠ .dead ∧ p ≠ .out)
    (hmark : p.mark (s.tdata t) ≤ (s.tdata t).next ∧
      (p.mark (s.tdata t) < (s.tdata t).next → .decremented t (s.tdata t).next ∉ s.log))
    (hpc : s.PcOk t p) (hlast : ∀ S, p ≠ .last S)
    (hpoll : ∀ S, p = .polling S ∨ p = .expired S → s.pc t = .polling S ∨ s.pc t = .expired S)
    (hround : s.pos = .sync → t = 0 → p.mark (s.tdata t) = s.round)
    (hback : s.pos = .sync → t = 0 → ∀ ok S, p = .returned ok S ∨ p = .leaving ok S →
      ∃ S', s.pc t = .returned ok S') : BarrierInv N (s.goto t p) := by
  refine h.goto (fun _ => hmark) hpc (fun S hS => absurd hS (hlast S))
    (fun S hS hseq => h.polls t S (hpoll S hS) hseq) ?_
  rintro rfl
  have hs : s.pos = .sync := by
    by_contra hn
    exact hout (h.daemon.out hn)
  refine h.daemon.inSync (p := p) hs hs rfl rfl (by simp [BarrierState.goto]) hp (hround hs rfl) ?_
  intro ok S hS
  obtain ⟨S', hS'⟩ := hback hs rfl ok S hS
  exact h.daemon.back ok S' hs (.inl hS')

/-- The next access of a thread to shared memory. -/
theorem step (h : BarrierInv N s) {t : ℕ} {e : Bool} (hp : s.pre N (.step t e))
    (ho : s.orderly (.step t e)) : BarrierInv N (s.threadStep t e) := by
  obtain ⟨-, hout, hdead⟩ := hp
  have hpt := h.pcs t
  have hm := h.mark t hdead
  have hd : ∀ {p : BarrierPc}, s.pc t = p → p ≠ .entered → t = 0 →
      s.pos = .sync ∧ p.mark (s.tdata t) = s.round := by
    rintro p rfl he
    exact h.daemon_mark hout he rfl
  cases hpc : s.pc t <;> rw [hpc] at hpt hm <;> simp only [BarrierState.threadStep, hpc]
  case out => exact absurd hpc hout
  case dead => exact absurd hpc hdead
  case entered =>
    have hlt : (s.tdata t).prev < (s.tdata t).next := hpt
    have hg := (h.next t).resolve_left (by omega)
    exact h.advance hout ⟨nofun, nofun⟩ ⟨le_rfl, fun hn => absurd hn (lt_irrefl _)⟩
      ⟨hg, hlt, hm.2 hlt⟩ nofun nofun (fun hs ht => ht ▸ (h.daemon.sync hs).2.1) nofun
  case got S =>
    split
    case isTrue hne =>
      have hnw : ¬ s.Won S := fun ⟨v, hv⟩ => hpt.2.2 (h.safe v S hv t hpt.1).1
      exact h.turnedAway hpt.1 hm (Ne.symm hne) hnw (hd hpc nofun)
    case isFalse =>
      exact h.advance hout ⟨nofun, nofun⟩ hm hpt nofun nofun (fun _ ht => (hd hpc nofun ht).2) nofun
  case ready S => exact h.fetchSub hpc (ho.1 S hpc)
  case last S =>
    split
    case isTrue hseq => exact h.win hpc hseq
    case isFalse hne => exact h.turnedAway hpt.1 hm hne hpt.2.2.2 (hd hpc nofun)
  case polling S =>
    split
    case isTrue =>
      -- a clock that says stay or go on to the exchange
      have hpoll : ∀ p : BarrierPc, p = .polling S ∨ p = .expired S → BarrierInv N (s.goto t p) := by
        rintro p (rfl | rfl)
        · refine h.advance hout ⟨nofun, nofun⟩ hm hpt nofun ?_ (fun _ ht => (hd hpc nofun ht).2) nofun
          rintro S' (hS' | hS') <;> cases hS'
          exact .inl hpc
        · refine h.advance hout ⟨nofun, nofun⟩ hm hpt nofun ?_ (fun _ ht => (hd hpc nofun ht).2) nofun
          rintro S' (hS' | hS') <;> cases hS'
          exact .inl hpc
      exact hpoll _ (by cases e <;> simp)
    case isFalse hne0 =>
      by_cases h1 : s.diff S = 1
      · rw [decide_eq_true h1]
        exact h.letThrough hpt.1 hm (ho.2 S hpc h1) (hd hpc nofun)
      · rw [decide_eq_false h1]
        refine h.turnedAway hpt.1 hm ?_ ?_ (hd hpc nofun)
        · intro hseq
          exact hne0 (by simp [BarrierState.diff, hseq])
        · intro hw
          exact h1 (by simp [BarrierState.diff, hpt.2.2.2 hw])
  case expired S =>
    split
    case isTrue hseq => exact h.timeout hpc hseq.1
    case isFalse =>
      refine h.advance hout ⟨nofun, nofun⟩ hm hpt nofun ?_ (fun _ ht => (hd hpc nofun ht).2) nofun
      rintro S' (hS' | hS') <;> cases hS'
      exact .inr hpc
  case returned ok S =>
    refine h.advance hout ⟨nofun, nofun⟩ ⟨le_rfl, fun hn => absurd hn (lt_irrefl _)⟩ trivial nofun nofun
      (fun hs ht => ht ▸ (h.daemon.sync hs).2.1) ?_
    rintro - - ok' S' (hS' | hS') <;> cases hS'
    exact ⟨S, hpc⟩
  case leaving ok v =>
    split
    case isTrue ht =>
      subst ht
      exact h.daemon_leave hpc
    case isFalse ht => exact h.leave hpc ht

theorem enter (h : BarrierInv N s) {t : ℕ} (hp : s.pre N (.enter t)) :
    BarrierInv N (s.next N (.enter t)) := by
  obtain ⟨ht, -, hout, -, hne⟩ := hp
  have hm := h.mark t (by simp [hout])
  rw [hout] at hm
  have hlt : (s.tdata t).prev < (s.tdata t).next := lt_of_le_of_ne hm.1 hne.symm
  exact h.goto (fun _ => hm) hlt nofun nofun (fun h0 => absurd h0 ht)

theorem crash (h : BarrierInv N s) {t : ℕ} (hp : s.pre N (.crash t)) :
    BarrierInv N (s.next N (.crash t)) :=
  h.goto (fun hn => absurd rfl hn) trivial nofun nofun (fun h0 => absurd h0 hp.1)

theorem activate (h : BarrierInv N s) {t : ℕ} {active : Bool} (hp : s.pre N (.activate t active)) :
    BarrierInv N (s.next N (.activate t active)) := by
  obtain ⟨ht, -, hout⟩ := hp
  have hm := h.mark t (by simp [hout])
  have heq : s.next N (.activate t active) =
      (s.setTdata t { s.tdata t with req := some active }).goto t .out := by
    simp [BarrierState.next, BarrierState.goto, BarrierState.setTdata, ← hout]
  rw [heq]
  rw [hout] at hm
  exact h.setThread rfl rfl (fun _ => hm) trivial nofun nofun (fun h0 => absurd h0 ht)

/-- The data of a later slot does not matter for the count. -/
theorem nrRunning_setTdata {t n : ℕ} {x : SyncTdata} (hn : n ≤ t) :
    (s.setTdata t x).nrRunning n = s.nrRunning n := by
  simp only [BarrierState.nrRunning, BarrierState.setTdata]
  congr 1
  apply Finset.filter_congr
  intro u hu
  rw [Function.update_of_ne (by rw [Finset.mem_range] at hu; omega)]

theorem nrRunning_succ (s : BarrierState) (n : ℕ) :
    s.nrRunning (n + 1) = s.nrRunning n + if (s.tdata n).running then 1 else 0 := by
  simp only [BarrierState.nrRunning, Finset.range_add_one, Finset.filter_insert]
  split
  · rw [Finset.card_insert_of_notMem (by simp)]
  · rfl

/-- The daemon passes slot `i` of the heartbeat loop. -/
theorem scanned (h : BarrierInv N s) {i c : ℕ} {gone : Bool} {x : SyncTdata} (hi : s.pos = .scan i c)
    (hgone : gone = true → s.pc i = .dead) (hnext : x.next = (s.tdata i).next)
    (hprev : x.prev = (s.tdata i).prev)
    (hd : i = 0 → x.running = true ∧ x.req ≠ some false) :
    BarrierInv N { s.setTdata i x with
      pos := if x.running then (if gone then .scanKill i c else .scan (i + 1) (c + 1))
        else .scan (i + 1) c } := by
  have hcount : c = s.nrRunning i := h.scan i c (.inl hi)
  have hs : ¬ s.pos.isOpen := by
    rw [hi]
    exact id
  have hnopoll : ∀ u S, s.pc u = .polling S ∨ s.pc u = .expired S → s.seq ≠ S + 1 := by
    intro u S hu hseq
    have := h.polls u S hu hseq
    simp [BarrierState.mayPoll, hi] at this
  have hself : (s.setTdata i x).goto i (s.pc i) = s.setTdata i x := by
    simp [BarrierState.setTdata, BarrierState.goto]
  have hcount' : c = (s.setTdata i x).nrRunning i := by rw [nrRunning_setTdata le_rfl, hcount]
  have hrun : ((s.setTdata i x).tdata i).running = x.running := by simp [BarrierState.setTdata]
  have hmove := h.moveThread i x (s.pc i)
    (if x.running then (if gone then .scanKill i c else .scan (i + 1) (c + 1)) else .scan (i + 1) c)
    s.outer hs (by simp [hi]) ?_ ?_ (h.toRoundInv.setState hnext hprev) ?_ ?_ ?_ ⟨?_, h.victims.2⟩ ?_
  · rw [hself] at hmove
    exact hmove
  · split
    · split <;> exact id
    · exact id
  · split
    · split <;> nofun
    · nofun
  · -- the count takes in slot `i` exactly when it is running
    have hsucc := nrRunning_succ (s.setTdata i x) i
    rw [hrun, ← hcount'] at hsucc
    intro i' c' hp
    split at hp
    case isTrue hr =>
      rw [if_pos hr] at hsucc
      split at hp
      · rcases hp with hp | hp <;> cases hp
        exact hcount'
      · rcases hp with hp | hp <;> cases hp
        exact hsucc.symm
    case isFalse hr =>
      rw [if_neg hr] at hsucc
      rcases hp with hp | hp <;> cases hp
      exact hsucc.symm
  · intro u S hu hseq
    rw [hself] at hu
    exact absurd hseq (hnopoll u S hu)
  · intro hn
    refine absurd ?_ hn
    split
    · split <;> trivial
    · trivial
  · intro j c' hp
    split at hp
    · split at hp
      case isTrue hg =>
        cases hp
        -- a process that is gone is not the daemon
        rintro rfl
        exact h.daemon.alive (hgone hg)
      case isFalse => cases hp
    · cases hp
  · rintro rfl
    refine ⟨(hd rfl).1, (hd rfl).2, h.daemon.out fun he => hs (he ▸ trivial), ?_⟩
    rw [hnext, hprev]
    exact h.daemon.finished hs

theorem scanSlot (h : BarrierInv N s) {gone : Bool} (hp : s.pre N (.scan gone)) :
    BarrierInv N (s.next N (.scan gone)) := by
  obtain ⟨i, c, hi, -, hgone⟩ := hp
  simp only [BarrierState.next, hi, BarrierState.scanSlot]
  refine h.scanned (x := { s.tdata i with running := (s.tdata i).req.getD (s.tdata i).running }) hi
    hgone rfl rfl ?_
  rintro rfl
  have hd := h.daemon
  refine ⟨?_, hd.req⟩
  -- the daemon has never asked to sleep
  cases hr : (s.tdata 0).req with
  | none => simpa [hr] using hd.running
  | some b =>
    cases b with
    | true => simp
    | false => exact absurd hr hd.req

theorem reap (h : BarrierInv N s) (hp : s.pre N .reap) : BarrierInv N (s.next N .reap) := by
  obtain ⟨i, c, hi⟩ := hp
  have hi0 : i ≠ 0 := h.victims.1 i c hi
  have hcount : c = s.nrRunning i := h.scan i c (.inr hi)
  simp only [BarrierState.next, hi, BarrierState.kill]
  refine h.moveThread i ⟨false, none, 0, 0⟩ .dead (.scan (i + 1) c) s.outer (by rw [hi]; exact id)
    (by simp [hi]) id nofun (h.toRoundInv.setThread (.inl rfl) (fun hn => absurd rfl hn) trivial)
    ?_ ?_ (fun hn => absurd trivial hn) ⟨nofun, h.victims.2⟩ (fun h0 => absurd h0 hi0)
  · rintro i' c' (he | he) <;> cases he
    rw [nrRunning_succ, nrRunning_setTdata le_rfl, ← hcount]
    simp [BarrierState.setTdata]
  · intro u S hu hseq
    by_cases hui : u = i
    · subst hui
      simp [BarrierState.goto] at hu
    · have hu' : s.pc u = .polling S ∨ s.pc u = .expired S := by
        simpa [BarrierState.goto, BarrierState.setTdata, hui] using hu
      have := h.polls u S hu' hseq
      simp [BarrierState.mayPoll, hi] at this

theorem killed (h : BarrierInv N s) (hp : s.pre N .killed) : BarrierInv N (s.next N .killed) := by
  obtain ⟨hi, hne⟩ := hp
  obtain ⟨j, rest, hout⟩ := List.exists_cons_of_ne_nil hne
  have hj : j ≠ 0 := h.victims.2 j (by simp [hout])
  simp only [BarrierState.next, hout, BarrierState.kill]
  refine h.moveThread j ⟨false, none, 0, 0⟩ .dead (.await (j + 1)) rest (by rw [hi]; exact id)
    (by simp [hi]) id nofun (h.toRoundInv.setThread (.inl rfl) (fun hn => absurd rfl hn) trivial)
    nofun ?_ (fun _ => ⟨by rw [hi]; exact id, fun hlt => absurd hlt (lt_irrefl 0)⟩)
    ⟨nofun, fun i hir => h.victims.2 i (by simp [hout, hir])⟩ (fun h0 => absurd h0 hj)
  intro u S hu hseq
  by_cases huj : u = j
  · subst huj
    simp [BarrierState.goto] at hu
  · have hu' : s.pc u = .polling S ∨ s.pc u = .expired S := by
      simpa [BarrierState.goto, BarrierState.setTdata, huj] using hu
    have hju := h.polls u S hu' hseq
    simp only [BarrierState.mayPoll, hi, hout] at hju ⊢
    omega

theorem boot (h : BarrierInv N s) {t : ℕ} (hp : s.pre N (.boot t)) (ho : s.orderly (.boot t)) :
    BarrierInv N (s.next N (.boot t)) := by
  obtain ⟨ht, -, hdead, -, hpos⟩ := hp
  have hround : RoundInv N ((s.setTdata t ⟨true, some true, 0, 0⟩).goto t .out) :=
    h.toRoundInv.setThread (.inl rfl) (fun _ => ⟨le_rfl, fun hlt => absurd hlt (lt_irrefl 0)⟩) trivial
  have hmove := h.moveThread t ⟨true, some true, 0, 0⟩ .out s.pos s.outer ?_ ?_ ?_ ?_ hround ?_ ?_
    (fun hn => ⟨hn, fun hlt => absurd hlt (lt_irrefl 0)⟩) h.victims (fun h0 => absurd h0 ht)
  · exact hmove
  · rcases hpos with hi | ⟨i, c, hi⟩ <;> rw [hi] <;> exact id
  · rcases hpos with hi | ⟨i, c, hi⟩ <;> rw [hi] <;> nofun
  · rcases hpos with hi | ⟨i, c, hi⟩ <;> rw [hi] <;> exact id
  · rcases hpos with hi | ⟨i, c, hi⟩ <;> rw [hi] <;> nofun
  · intro i c hc
    -- inside of the heartbeat loop the slot is still to be counted
    rcases hc with hc | hc
    · rcases hpos with hi | ⟨j, d, hi⟩ <;> rw [hi] at hc <;> cases hc
    · have hlt := ho i c hc
      rw [nrRunning_setTdata hlt.le]
      exact h.scan i c (.inr hc)
  · intro u S hu hseq
    by_cases hut : u = t
    · subst hut
      simp [BarrierState.goto] at hu
    · exact h.polls u S (by simpa [BarrierState.goto, BarrierState.setTdata, hut] using hu) hseq

theorem setCnt (h : BarrierInv N s) {S : ℕ} (hp : s.pre N (.setCnt S)) :
    BarrierInv N (s.next N (.setCnt S)) := by
  obtain ⟨⟨c, hi⟩, hS⟩ := hp
  have hlt : ∀ t S', .given t S' ∈ s.log → S' + 2 < S := by
    intro t S' ht
    have := (h.given t S' ht).2.2.2
    omega
  have hs : ¬ s.pos.isOpen := by
    rw [hi]
    exact id
  simp only [BarrierState.next, hi]
  constructor
  case toRoundInv =>
    refine ⟨fun t S' ht => ?_, h.decremented, h.returned, h.lost, h.won, h.safe, h.next, h.mark, h.pcs⟩
    have := h.given t S' ht
    exact ⟨this.1, this.2.1, this.2.2.1, .inr (hlt t S' ht)⟩
  case range => exact fun hn => absurd rfl hn
  case armed =>
    intro _ t ht
    have := hlt t S ht
    omega
  case closed => exact fun _ => h.closed hs
  case positive => exact fun _ => by dsimp only; omega
  case opened => nofun
  case members => nofun
  case handed => nofun
  case count =>
    intro _
    -- nobody has decremented the counter for the new number
    have hzero : ({ s with cnt := c, round := S, pos := .armed } : BarrierState).nrDecremented N = 0 := by
      simp only [BarrierState.nrDecremented, Finset.card_eq_zero, Finset.filter_eq_empty_iff]
      intro t _ hd
      have := hlt t S (h.decremented t S hd)
      omega
    rw [hzero]
    have hc := h.scan N c (.inl hi)
    change (c : ℤ) + (0 : ℕ) = s.nrRunning N
    rw [hc]
    simp
  case full => nofun
  case single => nofun
  case scan => nofun
  case polls =>
    intro t S' ht hseq
    have := h.polls t S' ht hseq
    simp [BarrierState.mayPoll, hi] at this
  case alive => exact fun hn => absurd trivial hn
  case victims => exact ⟨nofun, h.victims.2⟩
  case daemon =>
    have hd := h.daemon
    exact .between hd.running hd.req (hd.out fun he => hs (he ▸ trivial)) (hd.finished hs) id

theorem setSeq (h : BarrierInv N s) (hp : s.pre N .setSeq) : BarrierInv N (s.next N .setSeq) := by
  replace hp : s.pos = .armed := hp
  have hs : ¬ s.pos.isOpen := by
    rw [hp]
    exact id
  have hlt : ∀ t S, .given t S ∈ s.log → S + 2 < s.round := by
    intro t S ht
    refine (h.given t S ht).2.2.2.resolve_left fun he => ?_
    exact h.armed hp t (he ▸ ht)
  have hnone : ∀ t, .given t s.round ∉ s.log := h.armed hp
  have hnw : ¬ s.Won s.round := fun ⟨t, ht⟩ => hnone t (h.returned _ _ _ ht)
  have hnolast : ∀ t, s.pc t ≠ .last s.round := by
    intro t ht
    have h1 := h.pcs t
    rw [ht] at h1
    exact hnone t h1.1
  simp only [BarrierState.next]
  constructor
  case toRoundInv =>
    constructor
    case given =>
      intro t S ht
      have h1 := h.given t S ht
      have h2 := hlt t S ht
      exact ⟨h1.1, h1.2.1, by dsimp only; omega, .inr h2⟩
    case decremented => exact h.decremented
    case returned => exact h.returned
    case lost =>
      intro t S ht
      have := hlt t S (h.returned t S _ ht)
      dsimp only
      omega
    case won =>
      intro t S ht hseq
      have := hlt t S ht
      dsimp only at hseq
      omega
    case safe => exact h.safe
    case next => exact h.next
    case mark => exact h.mark
    case pcs =>
      intro t
      refine (h.pcs t).of_others le_rfl rfl (fun _ he => he) (fun _ he => he) (fun _ _ hw => hw) ?_
      intro S hS hw hw'
      -- the daemon has waited for those that polled after a success
      have := h.polls t S hS (hw hw')
      simp [BarrierState.mayPoll, hp] at this
  case range => exact fun _ => ⟨le_rfl, Nat.le_add_right ..⟩
  case armed => nofun
  case closed => exact fun hn => absurd trivial hn
  case positive => exact fun _ => h.positive (.inl hp)
  case opened => exact fun _ => .inl rfl
  case members => exact fun _ t ht => absurd ht (hnone t)
  case handed => exact fun _ _ t ht => absurd ht (hnone t)
  case count => exact fun _ => h.count (.inl hp)
  case full =>
    rintro - (hw | ⟨-, t, ht⟩)
    · exact absurd hw hnw
    · exact absurd ht (hnolast t)
  case single => exact fun _ _ t _ ht => absurd ht (hnolast t)
  case scan => nofun
  case polls => exact fun _ _ _ _ => trivial
  case alive =>
    intro _ t h0 hr
    have hg := (h.next t).resolve_left h0.ne'
    change (s.tdata t).next = s.round at hr
    rw [hr] at hg
    exact absurd hg (hnone t)
  case victims => exact ⟨nofun, h.victims.2⟩
  case daemon =>
    have hd := h.daemon
    have hpc : s.pc 0 = .out := hd.out (by simp [hp])
    constructor
    case running => exact hd.running
    case req => exact hd.req
    case alive => exact hd.alive
    case out => exact fun _ => hpc
    case finished => exact fun hn => absurd trivial hn
    case give =>
      intro i hi
      cases hi
      exact hd.finished hs
    case served => nofun
    case sync => nofun
    case back => nofun

/-- A running slot gets the number of the round. -/
theorem given_slot (h : BarrierInv N s) {i : ℕ} (hi : s.pos = .give i) (hiN : i < N)
    (hrun : (s.tdata i).running = true) :
    BarrierInv N { (s.setTdata i { s.tdata i with next := s.round }).record (.given i s.round) with
      pos := .give (i + 1) } := by
  have ho : s.pos.isOpen := by
    rw [hi]
    trivial
  have hnew : .given i s.round ∉ s.log := fun hg => lt_irrefl _ (h.handed i hi i hg)
  have hrange := h.range (by simp [hi])
  have hpos := h.positive (.inr ho)
  -- the round cannot have succeeded without this slot
  have hnw : ¬ s.Won s.round := fun hw =>
    hnew (h.decremented _ _ (h.full ho (.inl hw) i hiN hrun))
  have hne : s.seq ≠ s.round + 1 := by
    intro hseq
    obtain ⟨t, ht⟩ := (h.opened ho).resolve_left (by omega)
    exact hnw (h.won t _ ht hseq)
  have hr : ∀ u, (Function.update s.tdata i { s.tdata i with next := s.round } u).running =
      (s.tdata u).running := by
    intro u
    by_cases hu : u = i
    · subst hu
      rw [Function.update_self]
    · rw [Function.update_of_ne hu]
  constructor
  case toRoundInv =>
    exact (h.toRoundInv.give hiN hpos hrange.1 hnew hnw hne).setPos (.give (i + 1)) s.outer
  case range => exact fun _ => hrange
  case armed => nofun
  case closed => exact fun hn => absurd trivial hn
  case positive => exact fun _ => hpos
  case opened => exact fun _ => .inr ⟨i, List.mem_cons_self ..⟩
  case members =>
    intro _ u hu
    rcases List.mem_cons.mp hu with he | hu
    · cases he
      exact (hr i).trans hrun
    · exact (hr u).trans (h.members ho u hu)
  case handed =>
    intro i' hi' u hu
    cases hi'
    rcases List.mem_cons.mp hu with he | hu
    · cases he
      exact Nat.lt_succ_self i
    · exact (h.handed i hi u hu).trans (Nat.lt_succ_self i)
  case count =>
    intro hc
    have hseq : s.seq = s.round := (hc.resolve_left nofun).2
    have h1 := h.count (.inr ⟨ho, hseq⟩)
    simpa [BarrierState.nrDecremented, BarrierState.nrRunning, BarrierState.record,
      BarrierState.setTdata, hr] using h1
  case full =>
    intro _ hw u hu hrun'
    refine List.mem_cons_of_mem _ (h.full ho ?_ u hu ((hr u).symm.trans hrun'))
    refine hw.imp_left fun ⟨v, hv⟩ => ⟨v, ?_⟩
    exact (List.mem_cons.mp hv).resolve_left nofun
  case single => exact fun _ => h.single ho
  case scan => nofun
  case polls => exact fun _ _ _ _ => trivial
  case alive =>
    intro _ u h0 h1
    by_cases hu : u = i
    · subst hu
      exact (hr u).trans hrun
    · simp only [BarrierState.record, BarrierState.setTdata, Function.update_of_ne hu] at h0 h1 ⊢
      exact h.alive (by rw [hi]; exact id) u h0 h1
  case victims => exact ⟨nofun, h.victims.2⟩
  case daemon =>
    have hd := h.daemon
    have hpc : s.pc 0 = .out := hd.out (by simp [hi])
    have h0 : (s.tdata 0).prev < s.round ∧ (Function.update s.tdata i
        { s.tdata i with next := s.round } 0).prev = (s.tdata 0).prev ∧
        (Function.update s.tdata i { s.tdata i with next := s.round } 0).next = s.round ∧
        (Function.update s.tdata i { s.tdata i with next := s.round } 0).req = (s.tdata 0).req := by
      have hg := hd.give i hi
      by_cases hi0 : i = 0
      · subst hi0
        rw [if_pos rfl] at hg
        refine ⟨?_, by simp, by simp, by simp⟩
        have h1 := h.next_le_round 0
        rcases h.next 0 with h2 | h2
        · omega
        · have h3 : (s.tdata 0).next ≠ s.round := fun he => hnew (he ▸ h2)
          omega
      · rw [if_neg hi0] at hg
        simp only [Function.update_of_ne (Ne.symm hi0)]
        exact ⟨hg.2, trivial, hg.1, trivial⟩
    constructor
    case running => exact (hr 0).trans hd.running
    case req => exact fun he => hd.req (h0.2.2.2.symm.trans he)
    case alive => exact hd.alive
    case out => exact fun _ => hpc
    case finished => exact fun hn => absurd trivial hn
    case give =>
      intro i' hi'
      cases hi'
      rw [if_neg (Nat.succ_ne_zero i)]
      exact ⟨h0.2.2.1, h0.2.1.trans_lt h0.1⟩
    case served => nofun
    case sync => nofun
    case back => nofun

/-- The daemon moves on inside of a round. -/
theorem moveOpen (h : BarrierInv N s) (p : BarrierPc) (pos : DaemonPos) (ho : s.pos.isOpen)
    (hn : pos.isOpen) (hp : p = .out ∨ p = .entered)
    (hr : RoundInv N (s.goto 0 p))
    (hhanded : ∀ i, pos = .give i → ∀ t, .given t s.round ∈ s.log → t < i)
    (hd : { s.goto 0 p with pos := pos }.DaemonOk N) :
    BarrierInv N { s.goto 0 p with pos := pos } := by
  have hne : ∀ q : DaemonPos, ¬ q.isOpen → pos ≠ q := fun q hq he => hq (he ▸ hn)
  have hlast : ∀ t S, (s.goto 0 p).pc t = .last S → s.pc t = .last S := by
    intro t S ht
    by_cases h0 : t = 0
    · subst h0
      rcases hp with rfl | rfl <;> simp [BarrierState.goto] at ht
    · simpa [BarrierState.goto, h0] using ht
  have hnarmed : s.pos ≠ .armed := fun he => by
    rw [he] at ho
    exact ho
  have hnscan : ¬ s.pos.scanning := by
    revert ho
    cases s.pos <;> simp [DaemonPos.isOpen, DaemonPos.scanning]
  constructor
  case toRoundInv => exact hr.setPos pos s.outer
  case range => exact fun _ => h.range hnarmed
  case armed => exact fun he => absurd he (hne _ id)
  case closed => exact fun hc => absurd hn hc
  case positive => exact fun _ => h.positive (.inr ho)
  case opened => exact fun _ => h.opened ho
  case members => exact fun _ => h.members ho
  case handed => exact hhanded
  case count => exact fun hc => h.count (.inr ⟨ho, (hc.resolve_left (hne _ id)).2⟩)
  case full =>
    exact fun _ hw => h.full ho (hw.imp_right fun ⟨hseq, t, ht⟩ => ⟨hseq, t, hlast t _ ht⟩)
  case single => exact fun _ hseq t u ht hu => h.single ho hseq t u (hlast t _ ht) (hlast u _ hu)
  case scan =>
    rintro i c (he | he)
    · exact absurd he (hne _ id)
    · exact absurd he (hne _ id)
  case polls =>
    intro t S _ _
    revert hn
    cases pos <;> simp [DaemonPos.isOpen, BarrierState.mayPoll]
  case alive => exact fun _ => h.alive hnscan
  case victims => exact ⟨fun i c he => absurd he (hne _ id), h.victims.2⟩
  case daemon => exact hd

theorem give (h : BarrierInv N s) (hp : s.pre N .give) : BarrierInv N (s.next N .give) := by
  obtain ⟨i, hi, hiN⟩ := hp
  have ho : s.pos.isOpen := by
    rw [hi]
    trivial
  have hd := h.daemon
  have hpc : s.pc 0 = .out := hd.out (by simp [hi])
  have hself : s.goto 0 .out = s := by
    rw [← hpc]
    simp [BarrierState.goto]
  -- the slots that are passed over: not running, or behind the last one
  have hpass : ∀ pos : DaemonPos, pos.isOpen → pos ≠ .sync →
      (∀ j, pos = .give j → ∀ t, .given t s.round ∈ s.log → t < j) →
      (∀ j, pos = .give j → j = i + 1 ∧ i ≠ 0) → (pos = .served → i = N) →
      BarrierInv N { s with pos := pos } := by
    intro pos hn hns hh hj hserved
    have h1 := h.moveOpen .out pos ho hn (.inl rfl) (hself.symm ▸ h.toRoundInv) hh ?_
    · rw [hself] at h1
      exact h1
    · rw [hself]
      have hg := hd.give i hi
      constructor
      case running => exact hd.running
      case req => exact hd.req
      case alive => exact hd.alive
      case out => exact fun _ => hpc
      case finished => exact fun hc => absurd hn hc
      case give =>
        intro j he
        obtain ⟨rfl, hi0⟩ := hj j he
        rw [if_neg hi0] at hg
        rw [if_neg (Nat.succ_ne_zero i)]
        exact hg
      case served =>
        intro he
        rw [← hserved he]
        exact hg
      case sync => exact fun he => absurd he hns
      case back => exact fun _ _ he => absurd he hns
  simp only [BarrierState.next, hi]
  split
  case isTrue hlt =>
    rw [BarrierState.giveSlot]
    split
    case isTrue hrun => exact h.given_slot hi hlt hrun
    case isFalse hrun =>
      refine hpass _ trivial nofun ?_ ?_ nofun
      · intro j hj t ht
        cases hj
        exact (h.handed i hi t ht).trans (Nat.lt_succ_self i)
      · intro j hj
        cases hj
        refine ⟨rfl, ?_⟩
        rintro rfl
        exact hrun hd.running
  case isFalse hnlt => exact hpass _ trivial nofun nofun nofun (fun _ => by omega)

theorem check (h : BarrierInv N s) (hp : s.pre N .check) : BarrierInv N (s.next N .check) := by
  have hd := h.daemon
  have hpc : s.pc 0 = .out := hd.out (by rcases hp with hp | hp <;> simp [hp])
  simp only [BarrierState.next]
  split
  case isTrue hne =>
    -- only after a round has been scheduled
    have hpos : s.pos = .served := by
      refine hp.resolve_left fun hp => hne (hd.finished ?_)
      rw [hp]
      exact id
    have hs := hd.served hpos
    have hN : N ≠ 0 := fun h0 => by
      rw [if_pos h0] at hs
      exact hne hs
    rw [if_neg hN] at hs
    have hm := h.mark 0 hd.alive
    rw [hpc] at hm
    refine h.moveOpen .entered .sync (by rw [hpos]; trivial) trivial (.inr rfl) ?_ nofun ?_
    · rw [goto_eq]
      exact h.toRoundInv.setThread (h.next 0) (fun _ => hm)
        (by simp [BarrierState.setTdata, BarrierState.PcOk, hs.1, hs.2])
    · constructor
      case running => exact hd.running
      case req => exact hd.req
      case alive => simp [BarrierState.goto]
      case out => exact fun hn => absurd rfl hn
      case finished => exact fun hn => absurd trivial hn
      case give => nofun
      case served => nofun
      case sync => exact fun _ => ⟨by omega, hs.1, by simp [BarrierState.goto], by simp [BarrierState.goto]⟩
      case back =>
        intro ok S _ hb
        simp [BarrierState.goto] at hb
  case isFalse heq =>
    rw [not_not] at heq
    rcases hp with hp | hp
    · have hself : ({ s with pos := .idle } : BarrierState) = s := by rw [← hp]
      rw [hself]
      exact h
    · -- without any slot there is nobody to schedule
      have hs := hd.served hp
      have hN : N = 0 := by
        by_contra h0
        rw [if_neg h0] at hs
        omega
      have hnone : ∀ t S, .given t S ∉ s.log := fun t S ht => by
        have := (h.given t S ht).1
        omega
      exact {
        toRoundInv := h.toRoundInv.setPos .idle s.outer
        range := fun _ => h.range (by simp [hp])
        armed := nofun
        closed := fun _ t S ht => absurd ht (hnone t S)
        positive := nofun
        opened := nofun
        members := nofun
        handed := nofun
        count := nofun
        full := nofun
        single := nofun
        scan := nofun
        polls := fun t S ht => absurd (h.polling ht).1 (hnone t S)
        alive := fun _ => h.alive (by rw [hp]; exact id)
        victims := ⟨nofun, h.victims.2⟩
        daemon := .between hd.running hd.req hpc heq id }

theorem next_inv (h : BarrierInv N s) {a : BarrierAct} (hp : s.pre N a) (ho : s.orderly a) :
    BarrierInv N (s.next N a) := by
  cases a with
  | sched => exact h.sched hp ho
  | scan gone => exact h.scanSlot hp
  | reap => exact h.reap hp
  | setCnt S => exact h.setCnt hp
  | setSeq => exact h.setSeq hp
  | give => exact h.give hp
  | check => exact h.check hp
  | await => exact h.await hp
  | giveUp => exact h.giveUp hp
  | killed => exact h.killed hp
  | enter t => exact h.enter hp
  | step t e => exact h.step hp ho
  | activate t active => exact h.activate hp
  | crash t => exact h.crash hp
  | boot t => exact h.boot hp ho

theorem reachable (h : ((barrierSystem N).restrict BarrierState.orderly).Reachable s) :
    BarrierInv N s :=
  h.invariant (by rintro _ rfl; exact init) (fun _ _ hi hp => hi.next_inv hp.1 hp.2)

end BarrierInv

/-- In every run of orderly steps, over any number of rounds and threads, the barrier lets
nobody through without all the others. -/
theorem barrier_safe {N : ℕ} {s : BarrierState}
    (h : ((barrierSystem N).restrict BarrierState.orderly).Reachable s) : BarrierSafe s :=
  (BarrierInv.reachable h).safe

/-- What the daemon does before a round for two threads. -/
def schedActs (S : ℕ) : List BarrierAct :=
  [.sched, .scan false, .scan false, .setCnt S, .setSeq, .give, .give, .give, .check]

/-- The daemon and thread 1 go through a round, and the daemon is let through. -/
theorem barrier_safe_round :
    let s := (barrierSystem 2).run .booted (.boot 1 :: schedActs 10 ++ [.enter 1, .step 1 true,
      .step 1 true, .step 1 true, .step 0 true, .step 0 true, .step 0 true, .step 0 true])
    .returned 0 10 true ∈ s.log ∧ BarrierSafe s := by
  have h0 : ((barrierSystem 2).restrict BarrierState.orderly).Reachable .booted := .init rfl
  have h1 := h0.run (.boot 1 :: schedActs 10)
    ⟨⟨⟨by decide, by decide, rfl, rfl, .inl rfl⟩, nofun⟩, ⟨rfl, fun hn => absurd rfl hn⟩,
      ⟨⟨0, 0, rfl, by decide, nofun⟩, trivial⟩, ⟨⟨1, 1, rfl, by decide, nofun⟩, trivial⟩,
      ⟨⟨⟨2, rfl⟩, by decide⟩, trivial⟩, ⟨rfl, trivial⟩, ⟨⟨0, rfl, by decide⟩, trivial⟩,
      ⟨⟨1, rfl, by decide⟩, trivial⟩, ⟨⟨2, rfl, by decide⟩, trivial⟩, ⟨.inr rfl, trivial⟩, trivial⟩
  have h2 := h1.run [.enter 1, .step 1 true, .step 1 true, .step 1 true, .step 0 true, .step 0 true,
      .step 0 true, .step 0 true]
    ⟨⟨⟨by decide, by decide, rfl, rfl, by decide⟩, trivial⟩,
      ⟨⟨by decide, by decide, by decide⟩, nofun, nofun⟩, ⟨⟨by decide, by decide, by decide⟩, nofun, nofun⟩,
      ⟨⟨by decide, by decide, by decide⟩, fun _ h => by cases h; rfl, nofun⟩,
      ⟨⟨by decide, by decide, by decide⟩, nofun, nofun⟩, ⟨⟨by decide, by decide, by decide⟩, nofun, nofun⟩,
      ⟨⟨by decide, by decide, by decide⟩, fun _ h => by cases h; rfl, nofun⟩,
      ⟨⟨by decide, by decide, by decide⟩, nofun, nofun⟩, trivial⟩
  exact ⟨by decide, barrier_safe h2⟩

/-- Thread 1 is late with its decrement for 10: the daemon gives up that round, and the
late decrement then stands for thread 1 in the round of 20. -/
theorem barrier_late_decrement : ¬ ∀ s, (barrierSystem 2).Reachable s → BarrierSafe s := by
  intro hall
  have h0 : (barrierSystem 2).Reachable .booted := .init rfl
  have h1 := h0.run (.boot 1 :: schedActs 10)
    ⟨⟨by decide, by decide, rfl, rfl, .inl rfl⟩, rfl, ⟨0, 0, rfl, by decide, nofun⟩,
      ⟨1, 1, rfl, by decide, nofun⟩, ⟨⟨2, rfl⟩, by decide⟩, rfl, ⟨0, rfl, by decide⟩,
      ⟨1, rfl, by decide⟩, ⟨2, rfl, by decide⟩, .inr rfl, trivial⟩
  -- thread 1 has compared the numbers, and then the daemon's time is over
  have h2 := h1.run [.enter 1, .step 1 true, .step 1 true, .step 0 true, .step 0 true, .step 0 true,
      .step 0 true, .step 0 true, .step 0 true, .step 0 true]
    ⟨⟨by decide, by decide, rfl, rfl, by decide⟩, ⟨by decide, by decide, by decide⟩, ⟨by decide, by decide, by decide⟩,
      ⟨by decide, by decide, by decide⟩, ⟨by decide, by decide, by decide⟩,
      ⟨by decide, by decide, by decide⟩, ⟨by decide, by decide, by decide⟩,
      ⟨by decide, by decide, by decide⟩, ⟨by decide, by decide, by decide⟩,
      ⟨by decide, by decide, by decide⟩, trivial⟩
  have h3 := h2.run (schedActs 20)
    ⟨rfl, ⟨0, 0, rfl, by decide, nofun⟩, ⟨1, 1, rfl, by decide, nofun⟩, ⟨⟨2, rfl⟩, by decide⟩, rfl,
      ⟨0, rfl, by decide⟩, ⟨1, rfl, by decide⟩, ⟨2, rfl, by decide⟩, .inr rfl, trivial⟩
  have h4 := h3.run [.step 1 true, .step 0 true, .step 0 true, .step 0 true, .step 0 true]
    ⟨⟨by decide, by decide, by decide⟩, ⟨by decide, by decide, by decide⟩,
      ⟨by decide, by decide, by decide⟩, ⟨by decide, by decide, by decide⟩,
      ⟨by decide, by decide, by decide⟩, trivial⟩
  have h5 := hall _ h4 0 20 (by decide) 1 (by decide)
  exact absurd h5.1 (by decide)

end Tasvir
