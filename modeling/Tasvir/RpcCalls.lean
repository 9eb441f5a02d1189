import Mathlib.Tactic
import Tasvir.Machine
import Tasvir.Routing

/-! RPC calls and their responses: the 16-bit message ids, the table of status
slots of each process, resends, and the tid that all booting processes of a node
send under. Routing is taken from `Cluster`: a response reaches a process whose
tid, or the boot tid when it has none yet, is the destination. -/
namespace Tasvir

/-- TASVIR_NR_RPC_MSG. -/
def nrRpcMsg : ℕ := 256*1024

/-- `boot_tid` of the node with the given id. -/
def bootTid (nid : ℕ) : Tid := { nid, idx := noIdx, pid := 2^32-1 }

/-- `tasvir_rpc_status_type`. -/
inductive RpcStatusType
  | invalid | pending | failed | done
deriving DecidableEq, Repr

/-- A request in flight. `call` tells it from every other request ever sent. -/
structure RpcRequest where
  srcTid : Tid
  id : ℕ
  d : ℕ
  call : ℕ
deriving DecidableEq, Repr

/-- A response; `call` is the request whose execution produced it. -/
structure RpcResponse where
  dstTid : Tid
  id : ℕ
  d : ℕ
  call : ℕ
deriving DecidableEq, Repr

/-- `tasvir_rpc_status`. -/
structure RpcStatus where
  doFree : Bool := false
  id : ℕ := 0
  status : RpcStatusType := .invalid
  response : Option RpcResponse := none
deriving DecidableEq, Repr

/-- A request that `tasvir_vrpc` has enqueued and not yet given its slot. `id` is the
id it was sent with, `bufId` the one that its buffer holds now. -/
structure RpcSend where
  id : ℕ
  bufId : ℕ
  d : ℕ
  call : ℕ
deriving DecidableEq, Repr

/-- A request whose issuer still looks at its slot: the latest attempt of a
`tasvir_rpc_wait` that has not returned, or a `tasvir_rpc` not yet collected. -/
structure RpcWait where
  id : ℕ
  d : ℕ
  call : ℕ
deriving DecidableEq, Repr

/-- The part of `tasvir_tls_data` that RPC uses; `nrMsgs` is a `uint16_t`. -/
structure RpcProc where
  started : Bool := false
  alive : Bool := false
  nid : ℕ := 0
  thread : Option Tid := none
  nrMsgs : ℕ := 0
  statusL : ℕ → RpcStatus := fun _ => {}
  sending : List RpcSend := []
  waiting : List RpcWait := []

namespace RpcProc

/-- `ttld.thread ? ttld.thread->tid : ttld.ndata->boot_tid`. -/
def srcTid (x : RpcProc) : Tid := x.thread.getD (bootTid x.nid)

/-- The id that the next message takes. -/
def nextId (x : RpcProc) : ℕ := x.nrMsgs%nrRpcMsg

/-- `ttld.nr_msgs++`: also a memory message, a NOACK request, and a request that
does not fit in its ring. -/
def tick (x : RpcProc) : RpcProc := { x with nrMsgs := (x.nrMsgs+1)%2^16 }

/-- `tasvir_vrpc` up to `tasvir_handle_msg_rpc`, for a request that is enqueued and
expects a response. -/
def vrpc (x : RpcProc) (d call : ℕ) : RpcProc :=
  { x.tick with sending := { id := x.nextId, bufId := x.nextId, d, call } :: x.sending }

/-- The buffer of a request that has left, sent by the port or dropped by its
receiver, is taken from the mempool again and gets a message with another id. -/
def reuse (x : RpcProc) (y : RpcSend) (id : ℕ) : RpcProc :=
  { x with sending := { y with bufId := id } :: x.sending.erase y }

/-- The end of `tasvir_vrpc`: `&status_l[m->h.id]` and then `rs->id = m->h.id` read
the buffer that was handed over. -/
def takeSlot (x : RpcProc) (y : RpcSend) (id : ℕ) : RpcProc :=
  { x with
    statusL := Function.update x.statusL y.bufId { id, status := .pending }
    sending := x.sending.erase y
    waiting := { id := y.bufId, d := y.d, call := y.call } :: x.waiting }

/-- Id and number of the requests that still have an issuer. -/
def outstanding (x : RpcProc) : List (ℕ × ℕ) :=
  x.sending.map (fun y => (y.id, y.call)) ++ x.waiting.map (fun w => (w.id, w.call))

/-- The buffer of a response goes back to the mempool and its slot is left. -/
def leave (x : RpcProc) (w : RpcWait) : RpcProc :=
  { x with
    statusL := Function.update x.statusL w.id { x.statusL w.id with response := none }
    waiting := x.waiting.erase w }

/-- `tasvir_handle_msg_rpc_response`. -/
def handleMsgRpcResponse (x : RpcProc) (r : RpcResponse) : RpcProc :=
  { x with
    statusL := Function.update x.statusL r.id
      { x.statusL r.id with
        status := .done
        response := if (x.statusL r.id).doFree then none else some r } }

/-- `rs->do_free = true`, by the issuer of a `tasvir_rpc`. -/
def setDoFree (x : RpcProc) (w : RpcWait) : RpcProc :=
  { x with
    statusL := Function.update x.statusL w.id { x.statusL w.id with doFree := true } }

end RpcProc

/-- All processes of the cluster, the messages in flight, the number of requests
sent so far, and for each `tasvir_rpc_wait` that returned 0 its last request and
the request that its response answers. -/
structure RpcState where
  procs : ℕ → RpcProc
  reqs : List RpcRequest := []
  resps : List RpcResponse := []
  calls : ℕ := 0
  returned : List (ℕ × ℕ) := []

inductive RpcAct
  | start (p nid : ℕ)
  | exit (p : ℕ)
  /-- the end of boot: `ttld.thread` is set -/
  | setThread (p : ℕ) (tid : Tid)
  | tick (p : ℕ)
  | rpc (p d : ℕ)
  | reuse (p : ℕ) (y : RpcSend) (id : ℕ)
  /-- `id` is what the second read of the buffer's id gives -/
  | takeSlot (p : ℕ) (y : RpcSend) (id : ℕ)
  | setDoFree (p : ℕ) (w : RpcWait)
  /-- a timed resend by `tasvir_rpc_wait`; `sent` is false when the request is not enqueued -/
  | resend (p : ℕ) (w : RpcWait) (sent : Bool)
  | execute (q : RpcRequest)
  | loseRequest (q : RpcRequest)
  | loseResponse (r : RpcResponse)
  | respond (p : ℕ) (r : RpcResponse)
  /-- `tasvir_rpc_wait` returns 0 -/
  | returnOk (p : ℕ) (w : RpcWait) (r : RpcResponse)
  /-- `tasvir_rpc_wait` returns -1, or the issuer of a `tasvir_rpc` is done with the slot -/
  | leave (p : ℕ) (w : RpcWait)

namespace RpcState

def setProc (s : RpcState) (p : ℕ) (x : RpcProc) : RpcState :=
  { s with procs := Function.update s.procs p x }

/-- Process `p` sends a request on `d` under a new call number. -/
def send (s : RpcState) (p d : ℕ) : RpcState :=
  { s.setProc p ((s.procs p).vrpc d s.calls) with
    reqs := { srcTid := (s.procs p).srcTid, id := (s.procs p).nextId, d, call := s.calls } :: s.reqs
    calls := s.calls+1 }

/-- A tid holds the pid of its process, so a new one was not used before. -/
def pre (s : RpcState) : RpcAct → Prop
  | .start p _ => (s.procs p).started = false
  | .exit p => (s.procs p).alive = true
  | .setThread p tid => (s.procs p).alive = true ∧ (s.procs p).thread = none ∧ tid.idx ≠ noIdx ∧
      ∀ q, (s.procs q).thread ≠ some tid
  | .tick p => (s.procs p).alive = true
  | .rpc p _ => (s.procs p).alive = true
  | .reuse p y id => y ∈ (s.procs p).sending ∧ id < 2^16
  | .takeSlot p y _ => (s.procs p).alive = true ∧ y ∈ (s.procs p).sending
  | .setDoFree p w => (s.procs p).alive = true ∧ w ∈ (s.procs p).waiting
  | .resend p w _ => (s.procs p).alive = true ∧ w ∈ (s.procs p).waiting ∧
      ((s.procs p).statusL w.id).status = .pending
  | .execute q => q ∈ s.reqs
  | .loseRequest q => q ∈ s.reqs
  | .loseResponse r => r ∈ s.resps
  | .respond p r => r ∈ s.resps ∧ (s.procs p).alive = true ∧ (s.procs p).srcTid = r.dstTid
  | .returnOk p w r => (s.procs p).alive = true ∧ w ∈ (s.procs p).waiting ∧
      ((s.procs p).statusL w.id).status = .done ∧
      ((s.procs p).statusL w.id).response = some r ∧ r.d = w.d
  | .leave p w => (s.procs p).alive = true ∧ w ∈ (s.procs p).waiting

def next (s : RpcState) : RpcAct → RpcState
  | .start p nid => s.setProc p { started := true, alive := true, nid }
  | .exit p => s.setProc p { s.procs p with alive := false }
  | .setThread p tid => s.setProc p { s.procs p with thread := some tid }
  | .tick p => s.setProc p (s.procs p).tick
  | .rpc p d => s.send p d
  | .reuse p y id => s.setProc p ((s.procs p).reuse y id)
  | .takeSlot p y id => s.setProc p ((s.procs p).takeSlot y id)
  | .setDoFree p w => s.setProc p ((s.procs p).setDoFree w)
  | .resend p w sent =>
    -- a call that was not answered in time is made again, under a new identifier
    let s' := s.setProc p ((s.procs p).leave w)
    if sent then s'.send p w.d else s'.setProc p (s'.procs p).tick
  | .execute q =>
    -- the callee answers each request that reaches it
    { s with
      reqs := s.reqs.erase q
      resps := { dstTid := q.srcTid, id := q.id, d := q.d, call := q.call } :: s.resps }
  | .loseRequest q => { s with reqs := s.reqs.erase q }
  | .loseResponse r => { s with resps := s.resps.erase r }
  | .respond p r =>
    { s.setProc p ((s.procs p).handleMsgRpcResponse r) with resps := s.resps.erase r }
  | .returnOk p w r =>
    { s.setProc p ((s.procs p).leave w) with returned := (w.call, r.call) :: s.returned }
  | .leave p w => s.setProc p ((s.procs p).leave w)

end RpcState

def rpcSystem : Machine.System RpcState RpcAct where
  init := fun s => s = { procs := fun _ => {} }
  pre := RpcState.pre
  next := RpcState.next

/-- The source tid and the id that `p` would use next belong to no request or
response in flight and to no request that its issuer still waits for. -/
def RpcState.FreshId (s : RpcState) (p : ℕ) : Prop :=
  (∀ q ∈ s.reqs, q.srcTid = (s.procs p).srcTid → q.id ≠ (s.procs p).nextId) ∧
  (∀ r ∈ s.resps, r.dstTid = (s.procs p).srcTid → r.id ≠ (s.procs p).nextId) ∧
  (∀ q, (s.procs q).alive = true → (s.procs q).srcTid = (s.procs p).srcTid →
    ∀ e ∈ (s.procs q).outstanding, e.1 ≠ (s.procs p).nextId)

/-- The condition on a step: requests are sent with a fresh id only, and the buffer
of a request gets no other id before `tasvir_vrpc` has read it again. -/
def RpcState.fresh (s : RpcState) : RpcAct → Prop
  | .rpc p _ => s.FreshId p
  | .resend p w true => (s.setProc p ((s.procs p).leave w)).FreshId p
  | .reuse _ y id => id = y.id
  | _ => True

/-- A response in the slot of a waiting call answers that call. -/
def RpcProc.Sound (x : RpcProc) : Prop :=
  ∀ w ∈ x.waiting, ∀ r, (x.statusL w.id).response = some r → r.call = w.call

/-- What holds in every state reached. -/
structure RpcInv (s : RpcState) : Prop where
  req_call : ∀ q ∈ s.reqs, ∀ p, (s.procs p).alive = true → (s.procs p).srcTid = q.srcTid →
    ∀ e ∈ (s.procs p).outstanding, e.1 = q.id → e.2 = q.call
  resp_call : ∀ r ∈ s.resps, ∀ p, (s.procs p).alive = true → (s.procs p).srcTid = r.dstTid →
    ∀ e ∈ (s.procs p).outstanding, e.1 = r.id → e.2 = r.call
  buf : ∀ p, ∀ y ∈ (s.procs p).sending, y.bufId = y.id
  sound : ∀ p, (s.procs p).Sound
  ids_nodup : ∀ p, ((s.procs p).outstanding.map Prod.fst).Nodup
  returned : ∀ e ∈ s.returned, e.1 = e.2
  req_lt : ∀ q ∈ s.reqs, q.call < s.calls
  outstanding_lt : ∀ p, ∀ e ∈ (s.procs p).outstanding, e.2 < s.calls
  /-- messages carry a boot tid or the tid of some process -/
  req_known : ∀ q ∈ s.reqs, q.srcTid.idx = noIdx ∨ ∃ p, (s.procs p).thread = some q.srcTid
  resp_known : ∀ r ∈ s.resps, r.dstTid.idx = noIdx ∨ ∃ p, (s.procs p).thread = some r.dstTid
  unstarted : ∀ p, (s.procs p).started = false → (s.procs p).thread = none
  alive_started : ∀ p, (s.procs p).alive = true → (s.procs p).started = true

section
variable {s : RpcState}

theorem RpcProc.waiting_outstanding {x : RpcProc} {w : RpcWait} (h : w ∈ x.waiting) :
    (w.id, w.call) ∈ x.outstanding := by
  apply List.mem_append_right
  exact List.mem_map.mpr ⟨w, h, rfl⟩

theorem RpcProc.leave_outstanding (x : RpcProc) (w : RpcWait) :
    (x.leave w).outstanding.Sublist x.outstanding :=
  (List.Sublist.refl _).append (List.erase_sublist.map _)

/-- A buffer that gets its own id again. -/
theorem RpcProc.reuse_outstanding {x : RpcProc} {y : RpcSend} (h : y ∈ x.sending) (id : ℕ) :
    (x.reuse y id).outstanding.Perm x.outstanding := by
  apply List.Perm.append_right
  exact ((List.perm_cons_erase h).map (fun y => (y.id, y.call))).symm

/-- The request moves from the half-sent ones to the waiting ones. -/
theorem RpcProc.takeSlot_outstanding {x : RpcProc} {y : RpcSend} (h : y ∈ x.sending)
    (hbuf : y.bufId = y.id) (id : ℕ) : (x.takeSlot y id).outstanding.Perm x.outstanding := by
  have hmove : (x.takeSlot y id).outstanding.Perm
      ((y :: x.sending.erase y).map (fun y => (y.id, y.call)) ++
        x.waiting.map fun w => (w.id, w.call)) := by
    simp only [outstanding, takeSlot, List.map_cons, hbuf, List.cons_append]
    exact List.perm_middle
  apply hmove.trans
  apply List.Perm.append_right
  exact ((List.perm_cons_erase h).map (fun y => (y.id, y.call))).symm

/-- A step that only takes messages away, or leaves the processes' calls alone. -/
theorem RpcInv.mono (hi : RpcInv s) (s' : RpcState) (hreq : ∀ q ∈ s'.reqs, q ∈ s.reqs)
    (hresp : ∀ r ∈ s'.resps, r ∈ s.resps) (hret : s'.returned = s.returned)
    (hcalls : s'.calls = s.calls)
    (hthread : ∀ p, (s'.procs p).thread = (s.procs p).thread)
    (hnid : ∀ p, (s'.procs p).nid = (s.procs p).nid)
    (hstarted : ∀ p, (s'.procs p).started = (s.procs p).started)
    (halive : ∀ p, (s'.procs p).alive = true → (s.procs p).alive = true)
    (hopen : ∀ p, (s'.procs p).outstanding.Subperm (s.procs p).outstanding)
    (hbuf : ∀ p, ∀ y ∈ (s'.procs p).sending, y.bufId = y.id)
    (hsound : ∀ p, (s'.procs p).Sound) : RpcInv s' := by
  have htid : ∀ p, (s'.procs p).srcTid = (s.procs p).srcTid := by
    intro p
    simp only [RpcProc.srcTid, hthread, hnid]
  have hmem : ∀ p, ∀ e ∈ (s'.procs p).outstanding, e ∈ (s.procs p).outstanding :=
    fun p e h => (hopen p).subset h
  constructor
  case ids_nodup =>
    intro p
    obtain ⟨l, hperm, hsub⟩ := (hopen p)
    have hl : (l.map Prod.fst).Nodup := (hsub.map Prod.fst).nodup (hi.ids_nodup p)
    exact ((hperm.map Prod.fst).nodup_iff).mp hl
  all_goals grind [RpcInv]

/-- The state after a step of process `p` that sends nothing. -/
theorem RpcInv.setProc (hi : RpcInv s) (p : ℕ) (x : RpcProc) (hthread : x.thread = (s.procs p).thread)
    (hnid : x.nid = (s.procs p).nid) (hstarted : x.started = (s.procs p).started)
    (halive : x.alive = true → (s.procs p).alive = true)
    (hopen : x.outstanding.Subperm (s.procs p).outstanding)
    (hbuf : ∀ y ∈ x.sending, y.bufId = y.id) (hsound : x.Sound) : RpcInv (s.setProc p x) := by
  have hold := hi.buf
  apply hi.mono
  all_goals simp only [RpcState.setProc, Function.update_apply]
  case hsound =>
    intro q
    split
    · exact hsound
    · exact hi.sound q
  case hopen =>
    intro q
    split
    case isTrue h => rw [h]; exact hopen
    case isFalse => exact List.Subperm.refl _
  all_goals grind

theorem RpcProc.Sound.leave {x : RpcProc} (h : x.Sound) (w : RpcWait) : (x.leave w).Sound := by
  intro v hv r hr
  have hvm : v ∈ x.waiting := List.mem_of_mem_erase hv
  simp only [RpcProc.leave, Function.update_apply] at hr
  split at hr
  · cases hr
  · exact h v hvm r hr

theorem RpcProc.Sound.takeSlot {x : RpcProc} (h : x.Sound) (y : RpcSend) (id : ℕ) :
    (x.takeSlot y id).Sound := by
  intro w hw r hr
  simp only [RpcProc.takeSlot, Function.update_apply] at hw hr
  split at hr
  · cases hr
  case isFalse hne =>
    rcases List.mem_cons.mp hw with heq | hw
    · exact absurd (by rw [heq]) hne
    · exact h w hw r hr

theorem RpcProc.Sound.respond {x : RpcProc} (h : x.Sound) (r : RpcResponse)
    (hcall : ∀ w ∈ x.waiting, w.id = r.id → w.call = r.call) : (x.handleMsgRpcResponse r).Sound := by
  intro w hw r' hr
  simp only [RpcProc.handleMsgRpcResponse, Function.update_apply] at hw hr
  split at hr
  case isTrue hid =>
    split at hr
    · cases hr
    · cases hr
      exact (hcall w hw hid).symm
  case isFalse => exact h w hw r' hr

theorem RpcInv.leave (hi : RpcInv s) (p : ℕ) (w : RpcWait) :
    RpcInv (s.setProc p ((s.procs p).leave w)) :=
  hi.setProc p _ rfl rfl rfl id ((s.procs p).leave_outstanding w).subperm (hi.buf p)
    ((hi.sound p).leave w)

theorem RpcInv.tick (hi : RpcInv s) (p : ℕ) : RpcInv (s.setProc p (s.procs p).tick) :=
  hi.setProc p _ rfl rfl rfl id (List.Subperm.refl _) (hi.buf p) (hi.sound p)

theorem RpcInv.reuse (hi : RpcInv s) (p : ℕ) (y : RpcSend) (id : ℕ)
    (hp : s.pre (.reuse p y id)) (hid : id = y.id) : RpcInv (s.next (.reuse p y id)) := by
  have hopen := (RpcProc.reuse_outstanding hp.1 id).subperm
  apply hi.setProc p ((s.procs p).reuse y id) rfl rfl rfl (fun h => h) hopen ?_ (hi.sound p)
  intro z hz
  rcases List.mem_cons.mp hz with rfl | hz
  · exact hid
  · exact hi.buf p z (List.mem_of_mem_erase hz)

theorem RpcInv.takeSlot (hi : RpcInv s) (p : ℕ) (y : RpcSend) (id : ℕ)
    (hp : s.pre (.takeSlot p y id)) : RpcInv (s.next (.takeSlot p y id)) := by
  -- the buffer still has the id it was sent with, so this is the slot of the request
  have hbuf := hi.buf p
  have hopen := (RpcProc.takeSlot_outstanding hp.2 (hbuf y hp.2) id).subperm
  apply hi.setProc p ((s.procs p).takeSlot y id) rfl rfl rfl (fun h => h) hopen ?_
    ((hi.sound p).takeSlot y id)
  intro z hz
  exact hbuf z (List.mem_of_mem_erase hz)

/-- A request with a fresh id keeps the calls of its tid apart. -/
theorem RpcInv.send (hi : RpcInv s) (p d : ℕ) (ha : (s.procs p).alive = true)
    (hf : s.FreshId p) : RpcInv (s.send p d) := by
  obtain ⟨hreq, hresp, hopen⟩ := hf
  -- the id is fresh, so nothing that its tid waits for is mistaken for the new request
  have hmine := hopen p ha rfl
  have htid : ((s.procs p).vrpc d s.calls).srcTid = (s.procs p).srcTid := rfl
  have hout : ((s.procs p).vrpc d s.calls).outstanding =
      ((s.procs p).nextId, s.calls) :: (s.procs p).outstanding := rfl
  have hsend : ((s.procs p).vrpc d s.calls).sending =
      ⟨(s.procs p).nextId, (s.procs p).nextId, d, s.calls⟩ :: (s.procs p).sending := rfl
  have hknown : (s.procs p).srcTid.idx = noIdx ∨ (s.procs p).thread = some (s.procs p).srcTid := by
    unfold RpcProc.srcTid
    cases (s.procs p).thread with
    | none => exact Or.inl rfl
    | some tid => exact Or.inr rfl
  have hthread : ((s.procs p).vrpc d s.calls).thread = (s.procs p).thread := rfl
  have hstarted : ((s.procs p).vrpc d s.calls).started = (s.procs p).started := rfl
  have halive : ((s.procs p).vrpc d s.calls).alive = (s.procs p).alive := rfl
  constructor
  case ids_nodup =>
    intro q
    simp only [RpcState.send, RpcState.setProc, Function.update_apply]
    split
    · rw [hout, List.map_cons, List.nodup_cons]
      refine ⟨?_, hi.ids_nodup p⟩
      intro hm
      obtain ⟨e, he, hid⟩ := List.mem_map.mp hm
      exact hmine e he hid
    · exact hi.ids_nodup q
  case sound =>
    intro q
    simp only [RpcState.send, RpcState.setProc, Function.update_apply]
    split
    · exact hi.sound p
    · exact hi.sound q
  all_goals simp only [RpcState.send, RpcState.setProc, Function.update_apply]
  all_goals grind [RpcInv]

theorem RpcInv.loseResponse (hi : RpcInv s) (r : RpcResponse) :
    RpcInv { s with resps := s.resps.erase r } := by
  have hsub : ∀ x ∈ s.resps.erase r, x ∈ s.resps := fun x => List.mem_of_mem_erase
  constructor <;> grind [RpcInv]

theorem RpcInv.loseRequest (hi : RpcInv s) (q : RpcRequest) :
    RpcInv { s with reqs := s.reqs.erase q } := by
  have hsub : ∀ x ∈ s.reqs.erase q, x ∈ s.reqs := fun x => List.mem_of_mem_erase
  constructor <;> grind [RpcInv]

theorem RpcInv.respond (hi : RpcInv s) (p : ℕ) (r : RpcResponse) (hp : s.pre (.respond p r)) :
    RpcInv (s.next (.respond p r)) := by
  obtain ⟨hr, ha, hdst⟩ := hp
  -- a response goes by its id, which only the request it answers has
  have hcall : ∀ w ∈ (s.procs p).waiting, w.id = r.id → w.call = r.call :=
    fun w hw => hi.resp_call r hr p ha hdst _ (RpcProc.waiting_outstanding hw)
  have hsound := (hi.sound p).respond r hcall
  exact (hi.setProc p ((s.procs p).handleMsgRpcResponse r) rfl rfl rfl id (List.Subperm.refl _)
    (hi.buf p) hsound).loseResponse r

theorem RpcInv.execute (hi : RpcInv s) (q : RpcRequest) (hq : q ∈ s.reqs) :
    RpcInv (s.next (.execute q)) := by
  have hsub : ∀ x ∈ s.reqs.erase q, x ∈ s.reqs := fun x => List.mem_of_mem_erase
  constructor <;> simp only [RpcState.next] <;> grind [RpcInv]

/-- No message in flight carries a tid that is only now given out. -/
theorem RpcInv.setThread (hi : RpcInv s) (p : ℕ) (tid : Tid) (hp : s.pre (.setThread p tid)) :
    RpcInv (s.next (.setThread p tid)) := by
  obtain ⟨ha, hn, hidx, hfresh⟩ := hp
  -- a message has a boot tid or one that was given out before
  have hreq : ∀ q ∈ s.reqs, q.srcTid ≠ tid := by
    intro q hq h
    rcases hi.req_known q hq with hk | ⟨p', hk⟩
    · exact hidx (by rw [← h]; exact hk)
    · exact hfresh p' (by rw [← h]; exact hk)
  have hresp : ∀ r ∈ s.resps, r.dstTid ≠ tid := by
    intro r hr h
    rcases hi.resp_known r hr with hk | ⟨p', hk⟩
    · exact hidx (by rw [← h]; exact hk)
    · exact hfresh p' (by rw [← h]; exact hk)
  have htid : RpcProc.srcTid { s.procs p with thread := some tid } = tid := rfl
  have hout : RpcProc.outstanding { s.procs p with thread := some tid } =
      (s.procs p).outstanding := rfl
  have hknown : ∀ q, (s.procs q).thread ≠ none → q ≠ p := by
    intro q hq h
    exact hq (by rw [h]; exact hn)
  constructor <;> simp only [RpcState.next, RpcState.setProc, Function.update_apply]
  case sound =>
    intro q
    split
    · exact hi.sound p
    · exact hi.sound q
  all_goals grind [RpcInv]

theorem RpcInv.start (hi : RpcInv s) (p nid : ℕ) (hp : s.pre (.start p nid)) :
    RpcInv (s.next (.start p nid)) := by
  have hn := hi.unstarted p hp
  have hout : RpcProc.outstanding { started := true, alive := true, nid } = [] := rfl
  have hknown : ∀ q, (s.procs q).thread ≠ none → q ≠ p := by
    intro q hq h
    exact hq (by rw [h]; exact hn)
  constructor <;> simp only [RpcState.next, RpcState.setProc, Function.update_apply]
  case sound =>
    intro q
    split
    · exact fun w hw => absurd hw List.not_mem_nil
    · exact hi.sound q
  all_goals grind [RpcInv]

theorem RpcInv.setDoFree (hi : RpcInv s) (p : ℕ) (w : RpcWait) :
    RpcInv (s.next (.setDoFree p w)) := by
  apply hi.setProc p ((s.procs p).setDoFree w) rfl rfl rfl id (List.Subperm.refl _) (hi.buf p)
  intro v hv r hr
  simp only [RpcProc.setDoFree, Function.update_apply] at hv hr
  split at hr
  case isTrue h => exact hi.sound p v hv r (by rw [h]; exact hr)
  case isFalse => exact hi.sound p v hv r hr

theorem RpcInv.returnOk (hi : RpcInv s) (p : ℕ) (w : RpcWait) (r : RpcResponse)
    (hp : s.pre (.returnOk p w r)) : RpcInv (s.next (.returnOk p w r)) := by
  have hl := hi.leave p w
  -- the response in the slot answers the call that waits there
  have hcall := hi.sound p w hp.2.1 r hp.2.2.2.1
  constructor
  case returned =>
    intro e he
    rcases List.mem_cons.mp he with h | h
    · rw [h]
      exact hcall.symm
    · exact hi.returned e h
  · exact hl.req_call
  · exact hl.resp_call
  · exact hl.buf
  · exact hl.sound
  · exact hl.ids_nodup
  · exact hl.req_lt
  · exact hl.outstanding_lt
  · exact hl.req_known
  · exact hl.resp_known
  · exact hl.unstarted
  · exact hl.alive_started

theorem RpcInv.step (hi : RpcInv s) (a : RpcAct) (hp : s.pre a) (hf : s.fresh a) :
    RpcInv (s.next a) := by
  cases a with
  | start p nid => exact hi.start p nid hp
  | exit p =>
    exact hi.setProc p _ rfl rfl rfl (by simp) (List.Subperm.refl _) (hi.buf p) (hi.sound p)
  | setThread p tid => exact hi.setThread p tid hp
  | tick p => exact hi.tick p
  | rpc p d => exact hi.send p d hp hf
  | reuse p y id => exact hi.reuse p y id hp hf
  | takeSlot p y id => exact hi.takeSlot p y id hp
  | setDoFree p w => exact hi.setDoFree p w
  | resend p w sent =>
    -- the old slot is left, and the request goes out as a new one
    have hl := hi.leave p w
    cases sent with
    | true =>
      refine hl.send p w.d ?_ hf
      simp only [RpcState.setProc, Function.update_self]
      exact hp.1
    | false => exact hl.tick p
  | execute q => exact hi.execute q hp
  | loseRequest q => exact hi.loseRequest q
  | loseResponse r => exact hi.loseResponse r
  | respond p r => exact hi.respond p r hp
  | returnOk p w r => exact hi.returnOk p w r hp
  | leave p w => exact hi.leave p w

theorem rpcInv_reachable (h : (rpcSystem.restrict RpcState.fresh).Reachable s) : RpcInv s := by
  apply h.invariant
  · rintro s rfl
    constructor <;> simp [RpcProc.Sound, RpcProc.outstanding]
  · intro s a hi hp
    exact hi.step a hp.1 hp.2

theorem RpcState.outstanding_setProc {p : ℕ} {x : RpcProc}
    (h : ∀ e ∈ x.outstanding, e ∈ (s.procs p).outstanding) (q : ℕ) :
    ∀ e ∈ ((s.setProc p x).procs q).outstanding, e ∈ (s.procs q).outstanding := by
  intro e he
  simp only [RpcState.setProc, Function.update_apply] at he
  split at he
  case isTrue hq => rw [hq]; exact h e he
  case isFalse => exact he

theorem RpcState.outstanding_send {p d q : ℕ} {e : ℕ × ℕ}
    (h : e ∈ ((s.send p d).procs q).outstanding) :
    (q = p ∧ e = ((s.procs p).nextId, s.calls)) ∨ e ∈ (s.procs q).outstanding := by
  simp only [RpcState.send, RpcState.setProc, Function.update_apply] at h
  split at h
  case isTrue hq =>
    rcases List.mem_cons.mp h with he | he
    · exact Or.inl ⟨hq, he⟩
    · exact Or.inr (by rw [hq]; exact he)
  case isFalse => exact Or.inr h

/-- The steps that send a request. -/
def RpcAct.sends : RpcAct → Bool
  | .rpc _ _ => true
  | .resend _ _ true => true
  | _ => false

theorem RpcState.reqs_next (a : RpcAct) (ha : a.sends = false) :
    (s.next a).reqs.Sublist s.reqs ∧ (s.next a).calls = s.calls := by
  cases a
  case rpc => cases ha
  case resend p w sent =>
    cases sent
    case true => cases ha
    case false => exact ⟨List.Sublist.refl _, rfl⟩
  case execute | loseRequest => exact ⟨List.erase_sublist, rfl⟩
  all_goals exact ⟨List.Sublist.refl _, rfl⟩

/-- Only these give a process a request to wait for. -/
theorem RpcInv.outstanding_next (hi : RpcInv s) (a : RpcAct) (hp : s.pre a)
    (ha : a.sends = false) (q : ℕ) :
    ∀ e ∈ ((s.next a).procs q).outstanding, e ∈ (s.procs q).outstanding := by
  cases a
  case rpc => cases ha
  case resend p w sent =>
    cases sent
    case true => cases ha
    case false =>
      have hleave := RpcState.outstanding_setProc ((s.procs p).leave_outstanding w).subset q
      intro e he
      apply hleave e
      revert e
      apply RpcState.outstanding_setProc
      exact fun e he => he
  case execute | loseRequest | loseResponse => exact fun e he => he
  all_goals apply RpcState.outstanding_setProc
  case start => exact fun e he => absurd he List.not_mem_nil
  case reuse p y id => exact (RpcProc.reuse_outstanding hp.1 id).subset
  case takeSlot p y id => exact (RpcProc.takeSlot_outstanding hp.2 (hi.buf p y hp.2) id).subset
  case leave p w => exact ((s.procs p).leave_outstanding w).subset
  case returnOk p w r => exact ((s.procs p).leave_outstanding w).subset
  -- the other steps leave the requests of the process alone
  all_goals exact fun e he => he

/-- The request that is left is gone. -/
theorem RpcInv.leave_not_mem (hi : RpcInv s) {p : ℕ} {w : RpcWait} (hw : w ∈ (s.procs p).waiting) :
    (w.id, w.call) ∉ ((s.procs p).leave w).outstanding := by
  have hperm : (s.procs p).outstanding.Perm
      ((w.id, w.call) :: ((s.procs p).leave w).outstanding) := by
    have hcons := (List.perm_cons_erase hw).map (fun w => (w.id, w.call))
    exact (hcons.append_left _).trans List.perm_middle
  have hnodup := ((hperm.map Prod.fst).nodup_iff).mp (hi.ids_nodup p)
  intro hm
  rw [List.map_cons, List.nodup_cons] at hnodup
  exact hnodup.1 (List.mem_map.mpr ⟨_, hm, rfl⟩)

/-- Waiting calls of a process use different slots. -/
theorem RpcInv.waiting_nodup (hi : RpcInv s) (p : ℕ) :
    ((s.procs p).waiting.map RpcWait.id).Nodup := by
  have h := hi.ids_nodup p
  rw [RpcProc.outstanding, List.map_append, List.map_map, List.map_map] at h
  exact h.of_append_right

end

/-- With fresh ids a response that a waiting call finds in its slot answers that
very request, no two waiting calls of a process share a slot, and every
`tasvir_rpc_wait` that returned 0 returned the result of its own request. -/
theorem responses_match_requests (s : RpcState)
    (h : (rpcSystem.restrict RpcState.fresh).Reachable s) :
    (∀ p, ∀ w ∈ (s.procs p).waiting, ∀ r, ((s.procs p).statusL w.id).status = .done →
      ((s.procs p).statusL w.id).response = some r → r.call = w.call) ∧
    (∀ p, ((s.procs p).waiting.map RpcWait.id).Nodup) ∧
    (∀ e ∈ s.returned, e.1 = e.2) := by
  have hi := rpcInv_reachable h
  refine ⟨?_, hi.waiting_nodup, hi.returned⟩
  intro p w hw r _ hr
  exact hi.sound p w hw r hr

/-- Process 1 of node 7 asks for its thread and ends before the response comes;
process 2 boots on the same node and its first request has the same id. -/
def lateBootActs : List RpcAct :=
  [.start 1 7, .rpc 1 5, .takeSlot 1 ⟨0, 0, 5, 0⟩ 0, .execute ⟨bootTid 7, 0, 5, 0⟩, .exit 1,
    .start 2 7, .rpc 2 5, .takeSlot 2 ⟨0, 0, 5, 1⟩ 0, .respond 2 ⟨bootTid 7, 0, 5, 0⟩,
    .returnOk 2 ⟨0, 5, 1⟩ ⟨bootTid 7, 0, 5, 0⟩]

/-- Process 2 gets the response to the request of process 1. -/
theorem late_boot_response_taken :
    ∃ s, rpcSystem.Reachable s ∧ (1, 0) ∈ s.returned := by
  have h0 : rpcSystem.Reachable { procs := fun _ => {} } := .init rfl
  refine ⟨_, h0.run lateBootActs ?_, List.mem_singleton_self _⟩
  exact ⟨rfl, rfl, ⟨rfl, List.mem_singleton_self _⟩, List.mem_singleton_self _, rfl, rfl, rfl,
    ⟨rfl, List.mem_singleton_self _⟩, ⟨List.mem_singleton_self _, rfl, rfl⟩,
    ⟨rfl, List.mem_singleton_self _, rfl, rfl, rfl⟩, trivial⟩

/-- The tid of a running thread of node 7. -/
def runningTid : Tid := { nid := 7, idx := 1, pid := 100 }

/-- While process 1 waits for an answer it serves a request that makes a call of its
own, which is sent twice; process 2 boots on the same node. The answer to the outer
call comes first. -/
def nestedCallActs : List RpcAct :=
  [.start 1 7, .setThread 1 runningTid,
    .rpc 1 5, .takeSlot 1 ⟨0, 0, 5, 0⟩ 0, .tick 1,
    .rpc 1 6, .takeSlot 1 ⟨2, 2, 6, 1⟩ 2,
    .start 2 7, .rpc 2 8, .takeSlot 2 ⟨0, 0, 8, 2⟩ 0,
    .resend 1 ⟨2, 6, 1⟩ true, .takeSlot 1 ⟨3, 3, 6, 3⟩ 3,
    .execute ⟨runningTid, 2, 6, 1⟩, .execute ⟨runningTid, 3, 6, 3⟩,
    .execute ⟨runningTid, 0, 5, 0⟩, .execute ⟨bootTid 7, 0, 8, 2⟩,
    .respond 1 ⟨runningTid, 0, 5, 0⟩, .respond 1 ⟨runningTid, 2, 6, 1⟩,
    .respond 1 ⟨runningTid, 3, 6, 3⟩, .respond 2 ⟨bootTid 7, 0, 8, 2⟩,
    .returnOk 1 ⟨3, 6, 3⟩ ⟨runningTid, 3, 6, 3⟩, .returnOk 2 ⟨0, 8, 2⟩ ⟨bootTid 7, 0, 8, 2⟩]

/-- Only finitely many processes have to be looked at. -/
theorem RpcState.freshId_of_lt {s : RpcState} {p : ℕ} (n : ℕ)
    (hbeyond : ∀ q, (s.procs (q+n)).alive = false)
    (hreq : ∀ q ∈ s.reqs, q.srcTid = (s.procs p).srcTid → q.id ≠ (s.procs p).nextId)
    (hresp : ∀ r ∈ s.resps, r.dstTid = (s.procs p).srcTid → r.id ≠ (s.procs p).nextId)
    (hopen : ∀ q < n, (s.procs q).srcTid = (s.procs p).srcTid →
      ∀ e ∈ (s.procs q).outstanding, e.1 ≠ (s.procs p).nextId) : s.FreshId p := by
  refine ⟨hreq, hresp, ?_⟩
  intro q ha htid
  apply hopen q ?_ htid
  by_contra hn
  have hq : (s.procs q).alive = false := by
    rw [← Nat.sub_add_cancel (Nat.le_of_not_lt hn)]
    exact hbeyond (q-n)
  rw [hq] at ha
  cases ha

theorem responses_match_requests_nested :
    ∃ s w r, (rpcSystem.restrict RpcState.fresh).Reachable s ∧ w ∈ (s.procs 1).waiting ∧
      ((s.procs 1).statusL w.id).status = .done ∧
      ((s.procs 1).statusL w.id).response = some r ∧ r.call = w.call ∧
      s.returned = [(2, 2), (3, 3)] ∧ ∀ e ∈ s.returned, e.1 = e.2 := by
  have h0 : (rpcSystem.restrict RpcState.fresh).Reachable { procs := fun _ => {} } := .init rfl
  have hrun := h0.run nestedCallActs
    ⟨⟨rfl, trivial⟩, ⟨⟨rfl, rfl, by decide, fun q => by rcases q with _ | _ | q <;> nofun⟩, trivial⟩,
      ⟨rfl, RpcState.freshId_of_lt 3 (fun _ => rfl) (by decide) (by decide) (by decide)⟩,
      ⟨⟨rfl, by decide⟩, trivial⟩, ⟨rfl, trivial⟩,
      ⟨rfl, RpcState.freshId_of_lt 3 (fun _ => rfl) (by decide) (by decide) (by decide)⟩,
      ⟨⟨rfl, by decide⟩, trivial⟩, ⟨rfl, trivial⟩,
      ⟨rfl, RpcState.freshId_of_lt 3 (fun _ => rfl) (by decide) (by decide) (by decide)⟩,
      ⟨⟨rfl, by decide⟩, trivial⟩,
      ⟨⟨rfl, by decide, rfl⟩,
        RpcState.freshId_of_lt 3 (fun _ => rfl) (by decide) (by decide) (by decide)⟩,
      ⟨⟨rfl, by decide⟩, trivial⟩,
      ⟨List.mem_of_elem_eq_true rfl, trivial⟩, ⟨List.mem_of_elem_eq_true rfl, trivial⟩,
      ⟨List.mem_of_elem_eq_true rfl, trivial⟩, ⟨List.mem_of_elem_eq_true rfl, trivial⟩,
      ⟨⟨by decide, rfl, rfl⟩, trivial⟩, ⟨⟨by decide, rfl, rfl⟩, trivial⟩,
      ⟨⟨by decide, rfl, rfl⟩, trivial⟩, ⟨⟨by decide, rfl, rfl⟩, trivial⟩,
      ⟨⟨rfl, by decide, rfl, rfl, rfl⟩, trivial⟩, ⟨⟨rfl, by decide, rfl, rfl, rfl⟩, trivial⟩,
      trivial⟩
  obtain ⟨hslot, -, hret⟩ := responses_match_requests _ hrun
  have hwait : (⟨0, 5, 0⟩ : RpcWait) ∈
      ((Machine.System.run (rpcSystem.restrict RpcState.fresh) { procs := fun _ => {} }
        nestedCallActs).procs 1).waiting := by decide
  exact ⟨_, _, _, hrun, hwait, rfl, rfl, hslot 1 _ hwait ⟨runningTid, 0, 5, 0⟩ rfl rfl, rfl, hret⟩

end Tasvir
