import Mathlib.Tactic
import Tasvir.Machine

/-! The thread table of a node: how the daemon hands out slots, moves them
between states and frees them, and how the processes of the node use them. -/
namespace Tasvir

/-- `tasvir_thread_state`. -/
inductive ThreadState
  | invalid | dead | preboot | booting | running | sleeping
deriving DecidableEq, Repr

/-- TASVIR_NR_THREADS_LOCAL. -/
def nrThreadsLocal : ℕ := 64

/-- `tasvir_local_tdata`; `ringTx` and `ringRx` tell whether the pointers are set. -/
structure Tdata where
  state : ThreadState := .invalid
  stateReq : ThreadState := .invalid
  ringTx : Bool := false
  ringRx : Bool := false
deriving DecidableEq, Repr

/-- `tasvir_thread` with the node-local part of its tid. -/
structure ThreadRec where
  idx : ℕ := 0
  pid : ℕ := 0
  state : ThreadState := .invalid
deriving DecidableEq, Repr

/-- `tdata` of the node data, `threads` of the node area, and which of the ring
names `tasvir_tx_<idx>` and `tasvir_rx_<idx>` are taken. -/
structure ThreadTable where
  tdata : ℕ → Tdata
  threads : ℕ → ThreadRec
  txName : ℕ → Bool
  rxName : ℕ → Bool

/-- `rte_ring_create`: fails on a name that is taken and without memory. -/
def rteRingCreate (taken mem : Bool) : Bool := !taken && mem

namespace ThreadTable

/-- The test of the loop that looks for a free thread id. -/
def isFree (t : ThreadTable) (idx : ℕ) : Bool :=
  (t.tdata idx).state ≠ .running ∧ (t.tdata idx).state ≠ .booting

/-- The loop of `tasvir_init_thread`. -/
def freeSlot (t : ThreadTable) : Option ℕ := (List.range nrThreadsLocal).find? t.isFree

/-- The daemon's `tasvir_init_thread`; `mem` is whether the two rings find memory. -/
def tasvirInitThread (t : ThreadTable) (pid : ℕ) (mem : Bool × Bool) : ThreadTable × Option ℕ :=
  match t.freeSlot with
  | none => (t, none)
  | some idx =>
    let tx := rteRingCreate (t.txName idx) mem.1
    let rx := rteRingCreate (t.rxName idx) mem.2
    ({ tdata := Function.update t.tdata idx { state := .booting, ringTx := tx, ringRx := rx }
       threads := Function.update t.threads idx { idx, pid, state := .booting }
       txName := Function.update t.txName idx (t.txName idx || tx)
       rxName := Function.update t.rxName idx (t.rxName idx || rx) },
     if tx && rx then some idx else none)

/-- The daemon's `tasvir_init_finish` for `&ttld.node->threads[i]`, the thread
of another process. -/
def tasvirInitFinish (t : ThreadTable) (i : ℕ) : ThreadTable × Bool :=
  let idx := (t.threads i).idx
  if (t.tdata idx).state ≠ .booting then (t, false)
  else ({ t with
    threads := Function.update t.threads i { t.threads i with state := .running }
    tdata := Function.update t.tdata idx
      { t.tdata idx with state := .running, stateReq := .running } }, true)

/-- The first lines of the loop body of `tasvir_sched_sync_internal`. -/
def handOver (t : ThreadTable) (tid : ℕ) : ThreadTable :=
  if (t.tdata tid).stateReq ≠ .invalid ∧ (t.tdata tid).state ≠ (t.tdata tid).stateReq then
    { t with
      tdata := Function.update t.tdata tid { t.tdata tid with state := (t.tdata tid).stateReq } }
  else t

/-- `tasvir_activate`, by the thread in slot `tid`. -/
def tasvirActivate (t : ThreadTable) (tid : ℕ) (active : Bool) : ThreadTable :=
  { t with
    tdata := Function.update t.tdata tid
      { t.tdata tid with stateReq := if active then .running else .sleeping } }

/-- The end of `tasvir_kill_thread` for `&ttld.node->threads[i]`: free the rings
and clear both entries. `idx` is the slot found when the function started. -/
def clearThread (t : ThreadTable) (i idx : ℕ) : ThreadTable :=
  { tdata := Function.update t.tdata idx { state := .dead }
    threads := Function.update t.threads i { state := .dead }
    txName := Function.update t.txName idx (t.txName idx && !(t.tdata idx).ringTx)
    rxName := Function.update t.rxName idx (t.rxName idx && !(t.tdata idx).ringRx) }

end ThreadTable

/-- A process of the node: `thread` is the slot of `ttld.thread`, and `up` says
that its `tasvir_init` has returned. -/
structure Process where
  started : Bool := false
  alive : Bool := false
  thread : Option ℕ := none
  up : Bool := false
deriving DecidableEq, Repr

/-- The table, the processes, the requests and responses of their
`tasvir_init_thread` and `tasvir_init_finish` calls in flight, and the calls of
`tasvir_kill_thread` that have not returned, innermost first. -/
structure SlotState where
  table : ThreadTable
  procs : ℕ → Process
  initReqs : List ℕ := []
  initResps : List (ℕ × ℕ) := []
  finishReqs : List (ℕ × ℕ) := []
  finishOks : List ℕ := []
  killing : List (ℕ × ℕ) := []

inductive SlotAct
  /-- a new process, and one that ends by itself -/
  | start (p : ℕ)
  | exit (p : ℕ)
  /-- a process sends, or sends again, its `tasvir_init_thread` request -/
  | askThread (p : ℕ)
  | initThread (p : ℕ) (mem : Bool × Bool)
  | takeThread (p i : ℕ)
  | askFinish (p i : ℕ)
  | initFinish (p i : ℕ)
  | finished (p : ℕ)
  | activate (p i : ℕ) (active : Bool)
  | handOver (i : ℕ)
  /-- `tasvir_kill_thread` begins, services requests while it changes owners, and ends -/
  | killBegin (i : ℕ)
  | killEnd (i idx : ℕ)
deriving DecidableEq, Repr

namespace SlotState

def setProc (s : SlotState) (p : ℕ) (x : Process) : SlotState :=
  { s with procs := Function.update s.procs p x }

/-- SIGKILL. -/
def kill (s : SlotState) (p : ℕ) : SlotState := s.setProc p { s.procs p with alive := false }

/-- Processes are named by their pid, which is not used again. The daemon sits
in slot 0; it does not put itself to sleep, and neither of the two places that
call `tasvir_kill_thread` can pick it. A kill of pid 0 would signal the daemon's
own process group, which ends the run. -/
def pre (s : SlotState) : SlotAct → Prop
  | .start p => p ≠ 0 ∧ (s.procs p).started = false
  | .exit p => (s.procs p).alive = true ∧ (s.procs p).thread ≠ some 0
  | .askThread p => (s.procs p).alive = true ∧ (s.procs p).thread = none
  | .initThread p _ => p ∈ s.initReqs
  | .takeThread p i => (p, i) ∈ s.initResps ∧ (s.procs p).alive = true ∧ (s.procs p).thread = none
  | .askFinish p i => (s.procs p).alive = true ∧ (s.procs p).thread = some i ∧ (s.procs p).up = false
  | .initFinish p i => (p, i) ∈ s.finishReqs
  | .finished p => p ∈ s.finishOks ∧ (s.procs p).alive = true
  | .activate p i _ => (s.procs p).alive = true ∧ (s.procs p).up = true ∧
      (s.procs p).thread = some i ∧ i ≠ 0
  | .handOver i => i < nrThreadsLocal
  | .killBegin i => i < nrThreadsLocal ∧ i ≠ 0 ∧ (s.table.tdata i).state = .running
  | .killEnd i idx => s.killing.head? = some (i, idx) ∧ (s.table.threads i).pid ≠ 0

def next (s : SlotState) : SlotAct → SlotState
  | .start p => s.setProc p { started := true, alive := true }
  | .exit p => s.kill p
  | .askThread p => { s with initReqs := p :: s.initReqs }
  | .initThread p mem =>
    -- the daemon answers with the slot, or with nothing when it has failed
    let r := s.table.tasvirInitThread p mem
    { s with
      table := r.1
      initReqs := s.initReqs.erase p
      initResps := r.2.toList.map (Prod.mk p) ++ s.initResps }
  | .takeThread p i =>
    { s.setProc p { s.procs p with thread := some i } with
      initResps := s.initResps.erase (p, i) }
  | .askFinish p i => { s with finishReqs := (p, i) :: s.finishReqs }
  | .initFinish p i =>
    let r := s.table.tasvirInitFinish i
    { s with
      table := r.1
      finishReqs := s.finishReqs.erase (p, i)
      finishOks := if r.2 then p :: s.finishOks else s.finishOks }
  | .finished p => s.setProc p { s.procs p with up := true }
  | .activate _ i active => { s with table := s.table.tasvirActivate i active }
  | .handOver i => { s with table := s.table.handOver i }
  -- between the two steps other requests are served
  | .killBegin i => { s with killing := (i, (s.table.threads i).idx) :: s.killing }
  | .killEnd i idx =>
    { s.kill (s.table.threads i).pid with
      table := s.table.clearThread i idx
      killing := s.killing.tail }

instance (s : SlotState) : ∀ a, Decidable (s.pre a)
  | .start _ => inferInstanceAs (Decidable (_ ∧ _))
  | .exit _ => inferInstanceAs (Decidable (_ ∧ _))
  | .askThread _ => inferInstanceAs (Decidable (_ ∧ _))
  | .initThread _ _ => inferInstanceAs (Decidable (_ ∈ _))
  | .takeThread _ _ => inferInstanceAs (Decidable (_ ∧ _))
  | .askFinish _ _ => inferInstanceAs (Decidable (_ ∧ _))
  | .initFinish _ _ => inferInstanceAs (Decidable (_ ∈ _))
  | .finished _ => inferInstanceAs (Decidable (_ ∧ _))
  | .activate _ _ _ => inferInstanceAs (Decidable (_ ∧ _))
  | .handOver _ => inferInstanceAs (Decidable (_ < _))
  | .killBegin _ => inferInstanceAs (Decidable (_ ∧ _))
  | .killEnd _ _ => inferInstanceAs (Decidable (_ ∧ _))

/-- The node once its daemon, process `pid`, has booted. -/
def booted (pid : ℕ) : SlotState where
  table :=
    { tdata := Function.update (fun _ => {}) 0
        { state := .running, stateReq := .running, ringTx := true, ringRx := true }
      threads := Function.update (fun _ => {}) 0 { idx := 0, pid, state := .running }
      txName := Function.update (fun _ => false) 0 true
      rxName := Function.update (fun _ => false) 0 true }
  procs := Function.update (fun _ => {}) pid
    { started := true, alive := true, thread := some 0, up := true }

end SlotState

def slotSystem : Machine.System SlotState SlotAct where
  init := fun s => ∃ pid, pid ≠ 0 ∧ s = .booted pid
  pre := SlotState.pre
  next := SlotState.next

instance (s : SlotState) (a : SlotAct) : Decidable (slotSystem.pre s a) :=
  inferInstanceAs (Decidable (s.pre a))

/-- Process `p` is alive and slot `i` is its own: `ttld.thread` of `p` points
there, or the entry carries its pid. -/
def SlotState.Holds (s : SlotState) (p i : ℕ) : Prop :=
  (s.procs p).alive = true ∧ ((s.procs p).thread = some i ∨ (s.table.threads i).pid = p)

/-- A slot in one of the three states of a live thread. -/
def ThreadState.live : ThreadState → Bool
  | .booting | .running | .sleeping => true
  | .invalid | .dead | .preboot => false

/-- Every sleeping slot has a lower one that no live thread has. -/
def ThreadTable.SleepersCovered (t : ThreadTable) : Prop :=
  ∀ i < nrThreadsLocal, (t.tdata i).state = .sleeping →
    ∃ j < i, (t.tdata j).state.live = false

/-- The condition on a step: slots are handed out only while sleepers are covered. -/
def SlotState.covered (s : SlotState) : SlotAct → Prop
  | .initThread _ _ => s.table.SleepersCovered
  | _ => True

/-- What holds in every state reached. -/
structure SlotInv (s : SlotState) : Prop where
  /-- a slot is known only to the process whose pid it carries -/
  resp_pid : ∀ p i, (p, i) ∈ s.initResps → (s.procs p).alive = true → (s.table.threads i).pid = p
  thread_pid : ∀ p i, (s.procs p).thread = some i → (s.procs p).alive = true →
    (s.table.threads i).pid = p
  live : ∀ p i, (s.table.threads i).pid = p → (s.procs p).alive = true →
    (s.table.tdata i).state.live = true
  started : ∀ p i, (s.table.threads i).pid = p → p ≠ 0 → (s.procs p).started = true
  resp_started : ∀ p i, (p, i) ∈ s.initResps → (s.procs p).started = true
  req_started : ∀ p ∈ s.initReqs, (s.procs p).started = true
  zero : (s.procs 0).alive = false
  alive_started : ∀ p, (s.procs p).alive = true → (s.procs p).started = true
  /-- an entry names its own slot or, once cleared, slot 0 -/
  idx : ∀ i, (s.table.threads i).idx = i ∨ (s.table.threads i).idx = 0
  idx_live : ∀ i, (s.table.tdata i).state.live = true ∨ (s.table.tdata i).stateReq ≠ .invalid →
    (s.table.threads i).idx = i
  req : ∀ i, (s.table.tdata i).stateReq = .invalid ∨ (s.table.tdata i).stateReq = .running ∨
    (s.table.tdata i).stateReq = .sleeping
  daemon : (s.table.tdata 0).state = .running ∧ (s.table.tdata 0).stateReq = .running
  killing : ∀ x ∈ s.killing, x.1 = x.2 ∧ x.1 ≠ 0

theorem ThreadTable.freeSlot_not_live (t : ThreadTable) (hc : t.SleepersCovered) (k : ℕ)
    (hk : t.freeSlot = some k) : (t.tdata k).state.live = false := by
  unfold ThreadTable.freeSlot at hk
  rw [List.find?_range_eq_some] at hk
  obtain ⟨hfree, hmem, hmin⟩ := hk
  simp only [ThreadTable.isFree, decide_eq_true_eq] at hfree
  cases hs : (t.tdata k).state with
  | sleeping =>
    -- a lower slot that no live thread has would have ended the loop first
    obtain ⟨j, hj, hd⟩ := hc k (List.mem_range.mp hmem) hs
    have hjf := hmin j hj
    simp only [ThreadTable.isFree, Bool.not_eq_true', decide_eq_false_iff_not] at hjf
    exfalso
    apply hjf
    constructor
    · intro h
      rw [h] at hd
      cases hd
    · intro h
      rw [h] at hd
      cases hd
  | running => exact absurd hs hfree.1
  | booting => exact absurd hs hfree.2
  | invalid => rfl
  | dead => rfl
  | preboot => rfl

theorem slotInv_booted (pid : ℕ) (hpid : pid ≠ 0) : SlotInv (.booted pid) := by
  constructor <;> simp only [SlotState.booted, Function.update_apply] <;> grind [ThreadState.live]

section
variable {s : SlotState}

/-- Other requests and responses, for the same processes and slots. -/
theorem SlotInv.relist (hi : SlotInv s) {reqs oks : List ℕ} {resps finishes kills : List (ℕ × ℕ)}
    (hreqs : ∀ p ∈ reqs, (s.procs p).started = true)
    (hresps : ∀ p i, (p, i) ∈ resps → (s.procs p).started = true ∧
      ((s.procs p).alive = true → (s.table.threads i).pid = p))
    (hkills : ∀ x ∈ kills, x.1 = x.2 ∧ x.1 ≠ 0) :
    SlotInv { s with
      initReqs := reqs, initResps := resps, finishReqs := finishes, finishOks := oks
      killing := kills } :=
  { hi with
    resp_pid := fun p i h => (hresps p i h).2
    resp_started := fun p i h => (hresps p i h).1
    req_started := hreqs
    killing := hkills }

/-- What the responses under way say of a process. -/
theorem SlotInv.resp (hi : SlotInv s) {p i : ℕ} (h : (p, i) ∈ s.initResps) :
    (s.procs p).started = true ∧ ((s.procs p).alive = true → (s.table.threads i).pid = p) :=
  ⟨hi.resp_started p i h, hi.resp_pid p i h⟩

/-- A process ends, or learns of its own slot. -/
theorem SlotInv.setProc (hi : SlotInv s) {p : ℕ} {x : Process}
    (hs : x.started = (s.procs p).started) (ha : x.alive = true → (s.procs p).alive = true)
    (ht : ∀ i, x.thread = some i → x.alive = true → (s.table.threads i).pid = p) :
    SlotInv (s.setProc p x) := by
  have hself : (s.setProc p x).procs p = x := Function.update_self _ _ _
  have hother (q : ℕ) (h : q ≠ p) : (s.setProc p x).procs q = s.procs q :=
    Function.update_of_ne h _ _
  have hstarted (q : ℕ) : ((s.setProc p x).procs q).started = (s.procs q).started := by
    by_cases h : q = p
    · rw [h, hself, hs]
    · rw [hother q h]
  have halive (q : ℕ) (h : ((s.setProc p x).procs q).alive = true) :
      (s.procs q).alive = true := by
    by_cases hq : q = p
    · rw [hq, hself] at h
      rw [hq]
      exact ha h
    · rwa [hother q hq] at h
  exact
  { hi with
    resp_pid := fun q i h hq => hi.resp_pid q i h (halive q hq)
    thread_pid := by
      intro q i h hq
      by_cases hqp : q = p
      · rw [hqp, hself] at h hq
        rw [hqp]
        exact ht i h hq
      · rw [hother q hqp] at h hq
        exact hi.thread_pid q i h hq
    live := fun q i h hq => hi.live q i h (halive q hq)
    started := by
      intro q i h h0
      rw [hstarted]
      exact hi.started q i h h0
    resp_started := by
      intro q i h
      rw [hstarted]
      exact hi.resp_started q i h
    req_started := by
      intro q h
      rw [hstarted]
      exact hi.req_started q h
    zero := by
      by_contra h
      have h0 := halive 0 (by simpa using h)
      rw [hi.zero] at h0
      cases h0
    alive_started := by
      intro q hq
      rw [hstarted]
      exact hi.alive_started q (halive q hq) }

/-- Slots change state and keep their threads. -/
theorem SlotInv.retable (hi : SlotInv s) {t : ThreadTable}
    (hthreads : ∀ j, (t.threads j).pid = (s.table.threads j).pid ∧
      (t.threads j).idx = (s.table.threads j).idx)
    (hlive : ∀ j, (s.table.tdata j).state.live = true → (t.tdata j).state.live = true)
    (hidx : ∀ j, (t.tdata j).state.live = true ∨ (t.tdata j).stateReq ≠ .invalid →
      (s.table.threads j).idx = j)
    (hreq : ∀ j, (t.tdata j).stateReq = .invalid ∨ (t.tdata j).stateReq = .running ∨
      (t.tdata j).stateReq = .sleeping)
    (hdaemon : (t.tdata 0).state = .running ∧ (t.tdata 0).stateReq = .running) :
    SlotInv { s with table := t } :=
  { hi with
    resp_pid := fun p i h ha => (hthreads i).1.trans (hi.resp_pid p i h ha)
    thread_pid := fun p i h ha => (hthreads i).1.trans (hi.thread_pid p i h ha)
    live := fun p i h ha => hlive i (hi.live p i ((hthreads i).1.symm.trans h) ha)
    started := fun p i h => hi.started p i ((hthreads i).1.symm.trans h)
    idx := by
      intro i
      change (t.threads i).idx = i ∨ (t.threads i).idx = 0
      rw [(hthreads i).2]
      exact hi.idx i
    idx_live := fun i h => (hthreads i).2.trans (hidx i h)
    req := hreq
    daemon := hdaemon }

/-- Slot `k`, which no live process has, gets a new entry: that of another process, or an empty
one. -/
theorem SlotInv.reassign (hi : SlotInv s) {k : ℕ} {x : Tdata} {r : ThreadRec} {t : ThreadTable}
    (hk : k ≠ 0) (hdead : (s.procs (s.table.threads k).pid).alive = false)
    (htdata : t.tdata = Function.update s.table.tdata k x)
    (hthreads : t.threads = Function.update s.table.threads k r)
    (hstarted : r.pid ≠ 0 → (s.procs r.pid).started = true)
    (hlive : (s.procs r.pid).alive = true → x.state.live = true) (hreq : x.stateReq = .invalid)
    (hidx : r.idx = k ∨ r.idx = 0 ∧ x.state.live = false) :
    SlotInv { s with table := t } := by
  have hx : t.tdata k = x := by rw [htdata, Function.update_self]
  have hr : t.threads k = r := by rw [hthreads, Function.update_self]
  have hxo (i : ℕ) (h : i ≠ k) : t.tdata i = s.table.tdata i := by
    rw [htdata, Function.update_of_ne h]
  have hro (i : ℕ) (h : i ≠ k) : t.threads i = s.table.threads i := by
    rw [hthreads, Function.update_of_ne h]
  -- the entries of live processes stay
  have hkept (q i : ℕ) (h : (s.table.threads i).pid = q) (ha : (s.procs q).alive = true) :
      (t.threads i).pid = q := by
    have hik : i ≠ k := by
      rintro rfl
      rw [h, ha] at hdead
      cases hdead
    rwa [hro i hik]
  exact
  { hi with
    resp_pid := fun q i h ha => hkept q i (hi.resp_pid q i h ha) ha
    thread_pid := fun q i h ha => hkept q i (hi.thread_pid q i h ha) ha
    live := by
      intro q i h ha
      change (t.threads i).pid = q at h
      change (t.tdata i).state.live = true
      by_cases hik : i = k
      · rw [hik, hr] at h
        rw [hik, hx]
        exact hlive (by rwa [h])
      · rw [hro i hik] at h
        rw [hxo i hik]
        exact hi.live q i h ha
    started := by
      intro q i h h0
      change (t.threads i).pid = q at h
      by_cases hik : i = k
      · rw [hik, hr] at h
        rw [← h]
        exact hstarted (by rwa [h])
      · rw [hro i hik] at h
        exact hi.started q i h h0
    idx := by
      intro i
      change (t.threads i).idx = i ∨ (t.threads i).idx = 0
      by_cases hik : i = k
      · rw [hik, hr]
        exact hidx.imp_right And.left
      · rw [hro i hik]
        exact hi.idx i
    idx_live := by
      intro i h
      change (t.tdata i).state.live = true ∨ (t.tdata i).stateReq ≠ .invalid at h
      change (t.threads i).idx = i
      by_cases hik : i = k
      · rw [hik, hx] at h
        rw [hik, hr]
        rcases hidx with hown | ⟨-, hoff⟩
        · exact hown
        · rw [hoff, hreq] at h
          simp at h
      · rw [hxo i hik] at h
        rw [hro i hik]
        exact hi.idx_live i h
    req := by
      intro i
      change (t.tdata i).stateReq = .invalid ∨ (t.tdata i).stateReq = .running ∨
        (t.tdata i).stateReq = .sleeping
      by_cases hik : i = k
      · rw [hik, hx]
        exact Or.inl hreq
      · rw [hxo i hik]
        exact hi.req i
    daemon := by
      change (t.tdata 0).state = .running ∧ (t.tdata 0).stateReq = .running
      rw [hxo 0 (Ne.symm hk)]
      exact hi.daemon }

theorem SlotInv.start (hi : SlotInv s) (p : ℕ) (hp : s.pre (.start p)) :
    SlotInv (s.next (.start p)) := by
  obtain ⟨h0, hs⟩ := hp
  have hself : (s.next (.start p)).procs p = { started := true, alive := true } :=
    Function.update_self _ _ _
  have hother (q : ℕ) (h : q ≠ p) : (s.next (.start p)).procs q = s.procs q :=
    Function.update_of_ne h _ _
  have hstarted (q : ℕ) (h : (s.procs q).started = true) :
      ((s.next (.start p)).procs q).started = true := by
    by_cases hq : q = p
    · rw [hq, hself]
    · rwa [hother q hq]
  -- nothing is known of a process that has not started
  have hfresh {q : ℕ} (h : (s.procs q).started = true) : q ≠ p := by
    rintro rfl
    rw [hs] at h
    cases h
  exact
  { hi with
    resp_pid := by
      intro q i h ha
      rw [hother q (hfresh (hi.resp_started q i h))] at ha
      exact hi.resp_pid q i h ha
    thread_pid := by
      intro q i h ha
      by_cases hq : q = p
      · rw [hq, hself] at h
        cases h
      · rw [hother q hq] at h ha
        exact hi.thread_pid q i h ha
    live := by
      intro q i h ha
      by_cases hq : q = p
      · rw [hq] at h
        exact absurd rfl (hfresh (hi.started p i h h0))
      · rw [hother q hq] at ha
        exact hi.live q i h ha
    started := fun q i h hq => hstarted q (hi.started q i h hq)
    resp_started := fun q i h => hstarted q (hi.resp_started q i h)
    req_started := fun q h => hstarted q (hi.req_started q h)
    zero := by
      rw [hother 0 (Ne.symm h0)]
      exact hi.zero
    alive_started := by
      intro q ha
      by_cases hq : q = p
      · rw [hq, hself]
      · rw [hother q hq] at ha
        exact hstarted q (hi.alive_started q ha) }

theorem SlotInv.kill (hi : SlotInv s) (p : ℕ) : SlotInv (s.kill p) := by
  apply hi.setProc
  · rfl
  · intro ha
    cases ha
  · intro i _ ha
    cases ha

/-- The entry a request takes has no live process, so nobody loses its slot. -/
theorem SlotInv.initThread (hi : SlotInv s) (p : ℕ) (mem : Bool × Bool)
    (hp : s.pre (.initThread p mem))
    (hc : ∀ k, s.table.freeSlot = some k → (s.table.tdata k).state.live = false) :
    SlotInv (s.next (.initThread p mem)) := by
  have hstarted := hi.req_started p hp
  have hsub (q : ℕ) (h : q ∈ s.initReqs.erase p) : (s.procs q).started = true :=
    hi.req_started q (List.mem_of_mem_erase h)
  cases hk : s.table.freeSlot with
  | none =>
    have hsame : s.table.tasvirInitThread p mem = (s.table, none) := by
      rw [ThreadTable.tasvirInitThread, hk]
    rw [SlotState.next, hsame]
    exact hi.relist hsub (fun q i h => hi.resp h) hi.killing
  | some k =>
    have hd := hc k hk
    have hk0 : k ≠ 0 := by
      intro h
      rw [h, hi.daemon.1] at hd
      cases hd
    -- no live process has an entry in slot `k`
    have hfree : (s.procs (s.table.threads k).pid).alive = false := by
      by_contra ha
      rw [hi.live _ k rfl (by simpa using ha)] at hd
      cases hd
    have htable : SlotInv { s with table := (s.table.tasvirInitThread p mem).1 } := by
      rw [ThreadTable.tasvirInitThread, hk]
      exact hi.reassign hk0 hfree rfl rfl (fun _ => hstarted) (fun _ => rfl) rfl (Or.inl rfl)
    have hpid : ((s.table.tasvirInitThread p mem).1.threads k).pid = p := by
      rw [ThreadTable.tasvirInitThread, hk]
      change (Function.update s.table.threads k _ k).pid = p
      rw [Function.update_self]
    have hslot (j : ℕ) (h : (s.table.tasvirInitThread p mem).2 = some j) : j = k := by
      simp only [ThreadTable.tasvirInitThread, hk] at h
      split_ifs at h
      exact (Option.some.inj h).symm
    apply htable.relist hsub _ hi.killing
    intro q i h
    rcases List.mem_append.mp h with hnew | hold
    · -- the response to this request
      obtain ⟨j, hj, heq⟩ := List.mem_map.mp hnew
      obtain ⟨hq, hji⟩ := Prod.mk.inj heq
      rw [← hq, ← hji, hslot j (Option.mem_toList.mp hj)]
      exact ⟨hstarted, fun _ => hpid⟩
    · exact htable.resp hold

theorem SlotInv.takeThread (hi : SlotInv s) (p i : ℕ) (hp : s.pre (.takeThread p i)) :
    SlotInv (s.next (.takeThread p i)) := by
  obtain ⟨hr, ha, -⟩ := hp
  have hlist : SlotInv { s with initResps := s.initResps.erase (p, i) } :=
    hi.relist hi.req_started (fun q j h => hi.resp (List.mem_of_mem_erase h)) hi.killing
  apply hlist.setProc
  · rfl
  · exact fun _ => ha
  · intro j hj _
    cases hj
    exact hi.resp_pid p i hr ha

/-- What is left of a slot whose entry was cleared is the daemon's, which is not booting. -/
theorem SlotInv.idx_booting (hi : SlotInv s) {i : ℕ}
    (hb : (s.table.tdata (s.table.threads i).idx).state = .booting) :
    (s.table.threads i).idx = i ∧ i ≠ 0 := by
  have h0 : (s.table.threads i).idx ≠ 0 := by
    intro h
    rw [h, hi.daemon.1] at hb
    cases hb
  have hidx := (hi.idx i).resolve_right h0
  exact ⟨hidx, by rwa [hidx] at h0⟩

/-- A live slot takes another state of a live thread. -/
theorem SlotInv.setTdata (hi : SlotInv s) {i : ℕ} {x : Tdata} {t : ThreadTable}
    (htdata : t.tdata = Function.update s.table.tdata i x)
    (hthreads : ∀ j, (t.threads j).pid = (s.table.threads j).pid ∧
      (t.threads j).idx = (s.table.threads j).idx)
    (hidx : (s.table.threads i).idx = i)
    (hlive : (s.table.tdata i).state.live = true → x.state.live = true)
    (hreq : x.stateReq = .running ∨ x.stateReq = .sleeping)
    (hdaemon : i = 0 → x.state = .running ∧ x.stateReq = .running) :
    SlotInv { s with table := t } := by
  have hself : t.tdata i = x := by rw [htdata, Function.update_self]
  have hother (j : ℕ) (h : j ≠ i) : t.tdata j = s.table.tdata j := by
    rw [htdata, Function.update_of_ne h]
  apply hi.retable hthreads
  · intro j hj
    by_cases h : j = i
    · rw [h, hself]
      rw [h] at hj
      exact hlive hj
    · rwa [hother j h]
  · intro j hj
    by_cases h : j = i
    · rw [h, hidx]
    · rw [hother j h] at hj
      exact hi.idx_live j hj
  · intro j
    by_cases h : j = i
    · rw [h, hself]
      exact Or.inr hreq
    · rw [hother j h]
      exact hi.req j
  · by_cases h : 0 = i
    · rw [h, hself]
      exact hdaemon h.symm
    · rw [hother 0 h]
      exact hi.daemon

theorem SlotInv.initFinish (hi : SlotInv s) (p i : ℕ) : SlotInv (s.next (.initFinish p i)) := by
  by_cases hb : (s.table.tdata (s.table.threads i).idx).state = .booting
  · obtain ⟨hidx, hi0⟩ := hi.idx_booting hb
    rw [SlotState.next, ThreadTable.tasvirInitFinish, if_neg (not_not.mpr hb)]
    have hthreads (j : ℕ) : (Function.update s.table.threads i
          { s.table.threads i with state := .running } j).pid = (s.table.threads j).pid ∧
        (Function.update s.table.threads i
          { s.table.threads i with state := .running } j).idx = (s.table.threads j).idx := by
      by_cases h : j = i
      · rw [h, Function.update_self]
        exact ⟨rfl, rfl⟩
      · rw [Function.update_of_ne h]
        exact ⟨rfl, rfl⟩
    have htable := hi.setTdata (t := { s.table with
        threads := Function.update s.table.threads i { s.table.threads i with state := .running }
        tdata := Function.update s.table.tdata (s.table.threads i).idx
          { s.table.tdata (s.table.threads i).idx with state := .running, stateReq := .running } })
      rfl hthreads (by rw [hidx, hidx]) (fun _ => rfl) (Or.inl rfl) (fun h => absurd (hidx ▸ h) hi0)
    exact htable.relist hi.req_started (fun q j h => htable.resp h) hi.killing
  · rw [SlotState.next, ThreadTable.tasvirInitFinish, if_pos hb]
    exact hi.relist hi.req_started (fun q j h => hi.resp h) hi.killing

theorem SlotInv.finished (hi : SlotInv s) (p : ℕ) : SlotInv (s.next (.finished p)) := by
  apply hi.setProc
  · rfl
  · exact id
  · exact fun i => hi.thread_pid p i

theorem SlotInv.activate (hi : SlotInv s) (p i : ℕ) (active : Bool)
    (hp : s.pre (.activate p i active)) : SlotInv (s.next (.activate p i active)) := by
  obtain ⟨ha, -, ht, h0⟩ := hp
  have hl := hi.live p i (hi.thread_pid p i ht ha) ha
  apply hi.setTdata (t := s.table.tasvirActivate i active) rfl (fun j => ⟨rfl, rfl⟩)
    (hi.idx_live i (Or.inl hl))
  · exact id
  · cases active
    · exact Or.inr rfl
    · exact Or.inl rfl
  · exact fun h => absurd h h0

theorem SlotInv.handOver (hi : SlotInv s) (i : ℕ) : SlotInv (s.next (.handOver i)) := by
  by_cases h : (s.table.tdata i).stateReq ≠ .invalid ∧
      (s.table.tdata i).state ≠ (s.table.tdata i).stateReq
  · have hr := (hi.req i).resolve_left h.1
    have hl : (s.table.tdata i).stateReq.live = true := by
      rcases hr with hr | hr
      · rw [hr]
        rfl
      · rw [hr]
        rfl
    have hstep : s.table.handOver i = { s.table with
        tdata := Function.update s.table.tdata i
          { s.table.tdata i with state := (s.table.tdata i).stateReq } } := if_pos h
    apply hi.setTdata (t := s.table.handOver i) (congrArg ThreadTable.tdata hstep)
      (fun j => by rw [hstep]; exact ⟨rfl, rfl⟩) (hi.idx_live i (Or.inr h.1))
    · exact fun _ => hl
    · exact hr
    · rintro rfl
      exact ⟨hi.daemon.2, hi.daemon.2⟩
  · simpa only [SlotState.next, ThreadTable.handOver, if_neg h] using hi

theorem SlotInv.killBegin (hi : SlotInv s) (i : ℕ) (hp : s.pre (.killBegin i)) :
    SlotInv (s.next (.killBegin i)) := by
  obtain ⟨-, h0, hr⟩ := hp
  have hidx := hi.idx_live i (Or.inl (by rw [hr]; rfl))
  apply hi.relist hi.req_started (fun q j h => hi.resp h)
  intro x hx
  rcases List.mem_cons.mp hx with rfl | hx
  · exact ⟨hidx.symm, h0⟩
  · exact hi.killing x hx

theorem SlotInv.killEnd (hi : SlotInv s) (i idx : ℕ) (hp : s.pre (.killEnd i idx)) :
    SlotInv (s.next (.killEnd i idx)) := by
  obtain ⟨hh, hpid⟩ := hp
  have hmem : (i, idx) ∈ s.killing := List.mem_of_mem_head? hh
  obtain ⟨hii, h0⟩ := hi.killing _ hmem
  simp only at hii h0
  subst hii
  have hk := hi.kill (s.table.threads i).pid
  have hdead : ((s.kill (s.table.threads i).pid).procs (s.table.threads i).pid).alive = false := by
    change (Function.update s.procs _ _ _).alive = false
    rw [Function.update_self]
  have htable : SlotInv { s.kill (s.table.threads i).pid with table := s.table.clearThread i i } := by
    apply hk.reassign h0 hdead rfl rfl
    · exact fun h => absurd rfl h
    · intro h
      rw [hk.zero] at h
      cases h
    · rfl
    · exact Or.inr ⟨rfl, rfl⟩
  exact htable.relist hk.req_started (fun q j h => htable.resp h)
    (fun x hx => hi.killing x (List.mem_of_mem_tail hx))

theorem SlotInv.step (hi : SlotInv s) (a : SlotAct) (hp : s.pre a)
    (hc : ∀ p mem, a = .initThread p mem →
      ∀ k, s.table.freeSlot = some k → (s.table.tdata k).state.live = false) :
    SlotInv (s.next a) := by
  cases a with
  | start p => exact hi.start p hp
  | exit p => exact hi.kill p
  | askThread p =>
    apply hi.relist _ (fun q j h => hi.resp h) hi.killing
    intro q hq
    rcases List.mem_cons.mp hq with rfl | hq
    · exact hi.alive_started q hp.1
    · exact hi.req_started q hq
  | initThread p mem => exact hi.initThread p mem hp (hc p mem rfl)
  | takeThread p i => exact hi.takeThread p i hp
  | askFinish p i => exact hi.relist hi.req_started (fun q j h => hi.resp h) hi.killing
  | initFinish p i => exact hi.initFinish p i
  | finished p => exact hi.finished p
  | activate p i active => exact hi.activate p i active hp
  | handOver i => exact hi.handOver i
  | killBegin i => exact hi.killBegin i hp
  | killEnd i idx => exact hi.killEnd i idx hp

theorem slotInv_reachable (h : (slotSystem.restrict SlotState.covered).Reachable s) :
    SlotInv s := by
  apply h.invariant
  · rintro s ⟨pid, hpid, rfl⟩
    exact slotInv_booted pid hpid
  · intro s a hi hp
    apply hi.step a hp.1
    rintro p mem rfl
    exact s.table.freeSlot_not_live hp.2

theorem SlotInv.holds_pid (hi : SlotInv s) {p i : ℕ} (h : s.Holds p i) :
    (s.table.threads i).pid = p := by
  rcases h.2 with ht | hp
  · exact hi.thread_pid p i ht h.1
  · exact hp

end

/-- As long as slots are handed out with every sleeper covered, no slot is given
away from under a live thread and no two live threads have the same one. -/
theorem live_threads_have_distinct_slots (s : SlotState)
    (h : (slotSystem.restrict SlotState.covered).Reachable s) :
    (∀ p q i, s.Holds p i → s.Holds q i → p = q) ∧
    (∀ p mem i, s.pre (.initThread p mem) → s.covered (.initThread p mem) →
      s.table.freeSlot = some i → ∀ q, ¬s.Holds q i) := by
  have hi := slotInv_reachable h
  constructor
  · intro p q i hp hq
    rw [← hi.holds_pid hp, hi.holds_pid hq]
  · intro p mem i _ hc hfree q hq
    have hl := hi.live q i (hi.holds_pid hq) hq.1
    rw [s.table.freeSlot_not_live hc i hfree] at hl
    cases hl

/-- Process `p` boots into slot `i`. -/
def bootActs (p i : ℕ) : List SlotAct :=
  [.start p, .askThread p, .initThread p (true, true), .takeThread p i, .askFinish p i,
    .initFinish p i, .finished p]

/-- The only application thread goes to sleep and a second process asks for a slot. -/
def sleeperActs : List SlotAct :=
  bootActs 100 1 ++ [.activate 100 1 false, .handOver 1, .start 200, .askThread 200]

/-- The slot of the sleeping process 100 is the one found free, and its entry
then carries the pid of process 200. -/
theorem sleeping_slot_handed_out :
    ∃ s, slotSystem.Reachable s ∧ s.pre (.initThread 200 (true, true)) ∧
      (s.procs 100).thread = some 1 ∧ (s.table.tdata 1).state = .sleeping ∧
      s.table.freeSlot = some 1 ∧
      (s.next (.initThread 200 (true, true))).Holds 100 1 ∧
      (s.next (.initThread 200 (true, true))).Holds 200 1 := by
  refine ⟨slotSystem.run (.booted 1) sleeperActs, ?_, ?_⟩
  · have h0 : slotSystem.Reachable (.booted 1) := .init ⟨1, by decide, rfl⟩
    apply h0.run
    decide
  · unfold SlotState.Holds
    decide

/-- Two processes boot, the second sleeps, the first is killed, and a third boots. -/
def coveredActs : List SlotAct :=
  bootActs 100 1 ++ bootActs 200 2 ++
    [.activate 200 2 false, .handOver 2, .killBegin 1, .killEnd 1 1] ++ bootActs 300 1

instance (t : ThreadTable) : Decidable t.SleepersCovered := by
  unfold ThreadTable.SleepersCovered
  infer_instance

instance (s : SlotState) : ∀ a, Decidable (s.covered a)
  | .initThread _ _ => inferInstanceAs (Decidable s.table.SleepersCovered)
  | .start _ | .exit _ | .askThread _ | .takeThread _ _ | .askFinish _ _ | .initFinish _ _
  | .finished _ | .activate _ _ _ | .handOver _ | .killBegin _ | .killEnd _ _ => isTrue trivial

instance (s : SlotState) (a : SlotAct) :
    Decidable ((slotSystem.restrict SlotState.covered).pre s a) :=
  inferInstanceAs (Decidable (s.pre a ∧ s.covered a))

theorem live_threads_have_distinct_slots_covered :
    ∃ s, (slotSystem.restrict SlotState.covered).Reachable s ∧ (s.table.tdata 2).state = .sleeping ∧
      s.Holds 200 2 ∧ s.Holds 300 1 ∧ ∀ p q i, s.Holds p i → s.Holds q i → p = q := by
  have h : (slotSystem.restrict SlotState.covered).Reachable
      ((slotSystem.restrict SlotState.covered).run (.booted 1) coveredActs) := by
    have h0 : (slotSystem.restrict SlotState.covered).Reachable (.booted 1) :=
      .init ⟨1, by decide, rfl⟩
    apply h0.run
    decide +kernel
  refine ⟨_, h, by decide, ⟨by decide, by decide⟩, ⟨by decide, by decide⟩, ?_⟩
  exact (live_threads_have_distinct_slots _ h).1

end Tasvir
