import Mathlib.Tactic
import Tasvir.Ledger
import Tasvir.RpcCalls

/-! The buffers of RPC messages on one node: where each of them is while requests and
responses are sent, routed, executed, stored and collected. -/
namespace Tasvir
open Ledger Machine

/-- `tdata[i].ring_rx`, `tdata[i].ring_tx` and `ring_ext_tx`. -/
inductive RingId
  | rx (i : ℕ)
  | tx (i : ℕ)
  | ext
deriving DecidableEq, Repr

/-- `tasvir_rpc_status` with the buffer in its response field. -/
structure BufSlot where
  doFree : Bool := false
  status : RpcStatusType := .invalid
  response : Option ℕ := none
deriving DecidableEq

/-- A message and the buffer it is in. -/
abbrev BufMsg := ℕ × RpcMsg ℕ

/-- The mempool as a free list, the rings (`none` for NULL), the buffers that the port has not
given back yet, and the status slots and message counter of each process. -/
structure BufState where
  pool : List ℕ
  ring : RingId → Option (List BufMsg)
  net : List ℕ
  status : ℕ → ℕ → BufSlot
  nrMsgs : ℕ → ℕ

/-- Where a buffer can be; `hand` is a message that a call is working on. -/
inductive BufPlace
  | pool
  | ring (r : RingId)
  | net
  | slot (t id : ℕ)
  | hand
deriving DecidableEq

namespace BufState

/-- What is in each place while a call has the buffers `bs` in hand. -/
def holds (s : BufState) (bs : List ℕ) : BufPlace → List ℕ
  | .pool => s.pool
  | .ring r => ((s.ring r).getD []).map Prod.fst
  | .net => s.net
  | .slot t id => (s.status t id).response.toList
  | .hand => bs

/-- `rte_mempool_put`. -/
def put (s : BufState) (b : ℕ) : BufState := { s with pool := b :: s.pool }

def setRing (s : BufState) (r : RingId) (q : Option (List BufMsg)) : BufState :=
  { s with ring := Function.update s.ring r q }

def setSlot (s : BufState) (t id : ℕ) (x : BufSlot) : BufState :=
  { s with status := Function.update s.status t (Function.update (s.status t) id x) }

/-- `if (r && rte_ring_sp_enqueue(r, m) != 0)` and what follows: a full ring frees the
message, and a NULL ring does nothing with it. The second component tells whether 0 is
returned. -/
def enqueue (cap : ℕ) (s : BufState) (r : RingId) (x : BufMsg) : BufState × Bool :=
  match s.ring r with
  | none => (s, true)
  | some q => if q.length < cap then (s.setRing r (some (q ++ [x])), true) else (s.put x.1, false)

/-- `tasvir_handle_msg_rpc_response` at process `t`. -/
def respond (s : BufState) (t : ℕ) (x : BufMsg) : BufState :=
  let rs := s.status t x.2.id
  if rs.doFree then (s.setSlot t x.2.id { rs with status := .done, response := none }).put x.1
  else s.setSlot t x.2.id { rs with status := .done, response := some x.1 }

/-- The ring that a message is put into; a process without a thread uses the daemon's. -/
def ringOf : RpcOutcome → Option RingId
  | .ringRx i => some (.rx i)
  | .ringTx i => some (.tx (if i = noIdx then 0 else i))
  | .extTx _ => some .ext
  | _ => none

/-- The exits of `tasvir_handle_msg_rpc` other than the execution of a request. -/
def route (cap : ℕ) (s : BufState) (t : ℕ) (x : BufMsg) (o : RpcOutcome) : BufState × Bool :=
  match o with
  | .consume => (s.respond t x, true)
  | .free => (s.put x.1, false)
  | o => match ringOf o with
    | some r => s.enqueue cap r x
    | none => (s, true)

/-- `tasvir_handle_msg_rpc_request`: `k` is the cluster as process `t` sees it once the
function has run. -/
def request (k : Cluster ℕ ℕ ℕ) (cap : ℕ) (booting : Bool) (s : BufState) (t : ℕ) (x : BufMsg) :
    BufState :=
  if booting || x.2.noack then s.put x.1
  else match k.handleMsgRpcRequest t x.2 with
    | some m => (s.route cap t (x.1, m) (k.handleMsgRpc t .me m)).1
    -- abort
    | none => s

/-- `tasvir_handle_msg_rpc`, with the cluster before and after the execution of a request. -/
def handle (k k' : Cluster ℕ ℕ ℕ) (cap : ℕ) (booting : Bool) (s : BufState) (t : ℕ) (src : MsgSrc)
    (x : BufMsg) : BufState × Bool :=
  if k.handleMsgRpc t src x.2 = .execute then (s.request k' cap booting t x, true)
  else s.route cap t x (k.handleMsgRpc t src x.2)

/-- Free what the slot holds: the exits of `tasvir_rpc_wait`, what precedes its resends, and
the garbage collection in `tasvir_vrpc`. -/
def collect (s : BufState) (t id : ℕ) : BufState :=
  match (s.status t id).response with
  | some b => (s.setSlot t id { s.status t id with response := none }).put b
  | none => s

/-- `tasvir_vrpc`. -/
def vrpc (k k' : Cluster ℕ ℕ ℕ) (cap : ℕ) (booting : Bool) (s : BufState) (t d fid : ℕ)
    (noack : Bool) : BufState :=
  match s.pool with
  | [] => s
  | b :: pool =>
    let id := s.nrMsgs t%nrRpcMsg
    let s₁ := { s with
      pool, nrMsgs := Function.update s.nrMsgs t ((s.nrMsgs t+1)%2^16) }
    let r := s₁.handle k k' cap booting t .me (b, k.vrpc t d id fid noack)
    if !r.2 || noack then r.1
    else (r.1.collect t id).setSlot t id { status := .pending }

/-- The rest of `tasvir_kill_thread`: the rings of slot `i` are freed and NULL, and process
`t` is gone with its status slots. -/
def kill (s : BufState) (i t : ℕ) : BufState :=
  { (s.setRing (.rx i) none).setRing (.tx i) none with
    status := Function.update s.status t fun _ => {} }

end BufState

/-- `k` and `k'` are the cluster as the process sees it at that moment: any state of threads,
areas and owners. -/
inductive BufAct
  | vrpc (k k' : Cluster ℕ ℕ ℕ) (booting : Bool) (t d fid : ℕ) (noack : Bool)
  /-- process `t` takes a message from a ring of the node -/
  | service (k k' : Cluster ℕ ℕ ℕ) (booting : Bool) (t : ℕ) (r : RingId)
  /-- the daemon `t` takes a message from the port -/
  | portRx (k k' : Cluster ℕ ℕ ℕ) (booting : Bool) (t : ℕ) (m : RpcMsg ℕ)
  | portTx
  /-- the port gives a sent buffer back -/
  | txDone (b : ℕ)
  /-- `tasvir_rpc_wait` is done with the slot, or is about to resend -/
  | collect (t id : ℕ)
  | setDoFree (t id : ℕ)
  /-- `tasvir_init_thread` creates the rings of a free slot -/
  | newThread (i : ℕ)
  | kill (i t : ℕ)

namespace BufState

/-- The process does not abort over the message. -/
def NoAbort (k k' : Cluster ℕ ℕ ℕ) (booting : Bool) (t : ℕ) (src : MsgSrc) (m : RpcMsg ℕ) : Prop :=
  k.handleMsgRpc t src m = .execute → booting = false → m.noack = false →
    k'.handleMsgRpcRequest t m ≠ none

def pre (s : BufState) : BufAct → Prop
  | .vrpc k k' booting t d fid noack =>
    NoAbort k k' booting t .me (k.vrpc t d (s.nrMsgs t%nrRpcMsg) fid noack)
  | .service k k' booting t r => r ≠ .ext ∧ ∃ x q, s.ring r = some (x :: q) ∧
      NoAbort k k' booting t .loc x.2
  | .portRx k k' booting t m => s.pool ≠ [] ∧ NoAbort k k' booting t .net m
  | .portTx => ∃ x q, s.ring .ext = some (x :: q)
  | .txDone b => b ∈ s.net
  | .newThread i => s.ring (.rx i) = none ∧ s.ring (.tx i) = none
  | _ => True

def next (cap : ℕ) (s : BufState) : BufAct → BufState
  | .vrpc k k' booting t d fid noack => s.vrpc k k' cap booting t d fid noack
  | .service k k' booting t r => match s.ring r with
    | some (x :: q) => ((s.setRing r (some q)).handle k k' cap booting t .loc x).1
    | _ => s
  | .portRx k k' booting t m => match s.pool with
    | b :: pool => ({ s with pool }.handle k k' cap booting t .net (b, m)).1
    | [] => s
  | .portTx => match s.ring .ext with
    | some (x :: q) => { s.setRing .ext (some q) with net := x.1 :: s.net }
    | _ => s
  -- the network card gives a buffer back after sending
  | .txDone b => { s with net := s.net.erase b }.put b
  | .collect t id => s.collect t id
  | .setDoFree t id => s.setSlot t id { s.status t id with doFree := true }
  | .newThread i => (s.setRing (.rx i) (some [])).setRing (.tx i) (some [])
  | .kill i t => s.kill i t

end BufState

/-- A node with `n` buffers whose daemon has its rings. -/
def bufSystem (cap n : ℕ) : System BufState BufAct where
  init s := s = {
    pool := List.range n
    ring := fun r => if r = .rx 0 ∨ r = .tx 0 ∨ r = .ext then some [] else none
    net := []
    status := fun _ _ => {}
    nrMsgs := fun _ => 0 }
  pre := BufState.pre
  next := BufState.next cap

namespace BufState

/-- A message ends in a ring that exists or in a slot that holds no response. -/
def Lands (s : BufState) (t : ℕ) (m : RpcMsg ℕ) (o : RpcOutcome) : Prop :=
  (o = .consume → (s.status t m.id).response = none) ∧
  ∀ r, ringOf o = some r → r ≠ .ext → s.ring r ≠ none

/-- The message that is handled, or the response it is turned into, lands. -/
def Handles (k k' : Cluster ℕ ℕ ℕ) (booting : Bool) (s : BufState) (t : ℕ) (src : MsgSrc)
    (m : RpcMsg ℕ) : Prop :=
  if k.handleMsgRpc t src m = .execute then
    booting = false → ∀ m', k'.handleMsgRpcRequest t m = some m' →
      s.Lands t m' (k'.handleMsgRpc t .me m')
  else s.Lands t m (k.handleMsgRpc t src m)

/-- The condition on a step: no message is routed to a thread without rings, no response
arrives at a slot that holds one, and a thread that is killed has left nothing in its
rings and slots. -/
def lossless (s : BufState) : BufAct → Prop
  | .vrpc k k' booting t d fid noack =>
    s.Handles k k' booting t .me (k.vrpc t d (s.nrMsgs t%nrRpcMsg) fid noack)
  | .service k k' booting t r => ∀ x q, s.ring r = some (x :: q) →
      s.Handles k k' booting t .loc x.2
  | .portRx k k' booting t m => s.Handles k k' booting t .net m
  | .kill i t => (s.ring (.rx i)).getD [] = [] ∧ (s.ring (.tx i)).getD [] = [] ∧
      ∀ id, (s.status t id).response = none
  | _ => True

end BufState

section Moves
variable {all : ℕ → Prop} {s : BufState}

/-- The buffers that are not in hand are where they belong. -/
def Held (all : ℕ → Prop) (s : BufState) (bs : List ℕ) : Prop := Conserved all (s.holds bs)

/-- Only what the places hold matters. -/
theorem Held.congr {s' : BufState} {bs : List ℕ} (h : Held all s bs)
    (hs : ∀ p, s'.holds bs p = s.holds bs p) : Held all s' bs := by
  rw [Held, show s'.holds bs = s.holds bs from funext hs]
  exact h

@[simp] theorem holds_setRing (r r' : RingId) (q : Option (List BufMsg)) (bs : List ℕ) :
    (s.setRing r q).holds bs (.ring r') =
      if r' = r then (q.getD []).map Prod.fst else s.holds bs (.ring r') := by
  by_cases hr : r' = r
  · subst hr
    simp [BufState.holds, BufState.setRing]
  · simp [BufState.holds, BufState.setRing, hr]

@[simp] theorem holds_setSlot (t id t' id' : ℕ) (x : BufSlot) (bs : List ℕ) :
    (s.setSlot t id x).holds bs (.slot t' id') =
      if t' = t ∧ id' = id then x.response.toList else s.holds bs (.slot t' id') := by
  by_cases ht : t' = t
  · subst ht
    by_cases hid : id' = id
    · subst hid
      simp [BufState.holds, BufState.setSlot]
    · simp [BufState.holds, BufState.setSlot, hid]
  · simp [BufState.holds, BufState.setSlot, ht]

theorem Held.put {b : ℕ} (h : Held all s [b]) : Held all (s.put b) [] := by
  refine h.move (p := BufPlace.hand) (q := BufPlace.pool) (by simp) (List.Perm.refl [b])
    (List.Perm.refl _) ?_
  intro r h1 h2
  cases r with
  | pool => exact absurd rfl h2
  | hand => exact absurd rfl h1
  | _ => rfl

theorem Held.take {b : ℕ} {pool : List ℕ} (h : Held all s []) (hp : s.pool = b :: pool) :
    Held all { s with pool } [b] := by
  refine h.move (p := BufPlace.pool) (q := BufPlace.hand) (by simp) ?_ (List.Perm.refl [b]) ?_
  · rw [show s.holds [] .pool = b :: pool from hp]
    exact List.Perm.refl _
  · intro r h1 h2
    cases r with
    | pool => exact absurd rfl h1
    | hand => exact absurd rfl h2
    | _ => rfl

theorem Held.append {x : BufMsg} {r : RingId} {q : List BufMsg} (h : Held all s [x.1])
    (hr : s.ring r = some q) : Held all (s.setRing r (some (q ++ [x]))) [] := by
  refine h.move (p := BufPlace.hand) (q := BufPlace.ring r) (by simp) (List.Perm.refl [x.1]) ?_ ?_
  · rw [holds_setRing, if_pos rfl, BufState.holds, hr]
    simp
  · intro p h1 h2
    cases p with
    | ring r' =>
      rw [holds_setRing, if_neg (fun h' => h2 (by rw [h']))]
      rfl
    | hand => exact absurd rfl h1
    | _ => rfl

theorem Held.dequeue {x : BufMsg} {r : RingId} {q : List BufMsg} (h : Held all s [])
    (hr : s.ring r = some (x :: q)) : Held all (s.setRing r (some q)) [x.1] := by
  refine h.move (p := BufPlace.ring r) (q := BufPlace.hand) (by simp) ?_ (List.Perm.refl [x.1]) ?_
  · rw [holds_setRing, if_pos rfl, BufState.holds, hr]
    exact List.Perm.refl _
  · intro p h1 h2
    cases p with
    | ring r' =>
      rw [holds_setRing, if_neg (fun h' => h1 (by rw [h']))]
      rfl
    | hand => exact absurd rfl h2
    | _ => rfl

/-- A slot that held nothing gets the buffer. -/
theorem Held.store {b t id : ℕ} {x : BufSlot} (h : Held all s [b])
    (hn : (s.status t id).response = none) (hx : x.response = some b) :
    Held all (s.setSlot t id x) [] := by
  refine h.move (p := BufPlace.hand) (q := BufPlace.slot t id) (by simp) (List.Perm.refl [b]) ?_ ?_
  · rw [holds_setSlot, if_pos ⟨rfl, rfl⟩, hx, BufState.holds, hn]
    exact List.Perm.refl _
  · intro p h1 h2
    cases p with
    | slot t' id' =>
      rw [holds_setSlot, if_neg (fun h' => h2 (by rw [h'.1, h'.2]))]
      rfl
    | hand => exact absurd rfl h1
    | _ => rfl

theorem Held.empty {b t id : ℕ} {x : BufSlot} (h : Held all s [])
    (hb : (s.status t id).response = some b) (hx : x.response = none) :
    Held all (s.setSlot t id x) [b] := by
  refine h.move (p := BufPlace.slot t id) (q := BufPlace.hand) (by simp) ?_ (List.Perm.refl [b]) ?_
  · rw [holds_setSlot, if_pos ⟨rfl, rfl⟩, hx, BufState.holds, hb]
    exact List.Perm.refl _
  · intro p h1 h2
    cases p with
    | slot t' id' =>
      rw [holds_setSlot, if_neg (fun h' => h1 (by rw [h'.1, h'.2]))]
      rfl
    | hand => exact absurd rfl h2
    | _ => rfl

/-- Any change of a slot that leaves its response alone. -/
theorem Held.setSlot {t id : ℕ} {x : BufSlot} {bs : List ℕ} (h : Held all s bs)
    (hx : x.response = (s.status t id).response) : Held all (s.setSlot t id x) bs := by
  refine h.congr fun p => ?_
  cases p with
  | slot t' id' =>
    rw [holds_setSlot]
    split_ifs with h'
    · rw [hx, h'.1, h'.2]
      rfl
    · rfl
  | _ => rfl

end Moves

section Calls
variable {all : ℕ → Prop} {s : BufState} (k k' : Cluster ℕ ℕ ℕ) (cap : ℕ) (booting : Bool)

theorem enqueue_held {r : RingId} {x : BufMsg} (h : Held all s [x.1]) (hr : s.ring r ≠ none) :
    Held all (s.enqueue cap r x).1 [] := by
  obtain ⟨q, hq⟩ := Option.ne_none_iff_exists'.mp hr
  simp only [BufState.enqueue, hq]
  split_ifs
  · exact h.append hq
  · exact h.put

theorem respond_held {t : ℕ} {x : BufMsg} (h : Held all s [x.1])
    (hn : (s.status t x.2.id).response = none) : Held all (s.respond t x) [] := by
  simp only [BufState.respond]
  split_ifs
  · exact (h.setSlot hn.symm).put
  · exact h.store hn rfl

theorem route_held {t : ℕ} {x : BufMsg} {o : RpcOutcome} (h : Held all s [x.1])
    (hext : s.ring .ext ≠ none) (ho : o ≠ .execute) (hl : s.Lands t x.2 o) :
    Held all (s.route cap t x o).1 [] := by
  have hring (r : RingId) (hr : BufState.ringOf o = some r) : s.ring r ≠ none := by
    by_cases he : r = .ext
    · rw [he]
      exact hext
    · exact hl.2 r hr he
  cases o with
  | execute => exact absurd rfl ho
  | consume => exact respond_held h (hl.1 rfl)
  | free => exact h.put
  | ringTx i => exact enqueue_held cap h (hring _ rfl)
  | ringRx i => exact enqueue_held cap h (hring _ rfl)
  | extTx i => exact enqueue_held cap h (hring _ rfl)

/-- A response is never executed. -/
theorem handleMsgRpc_response {t : ℕ} {src : MsgSrc} {m m' : RpcMsg ℕ}
    (h : k.handleMsgRpcRequest t m = some m') : k.handleMsgRpc t src m' ≠ .execute := by
  have htype : m'.type = .rpcResponse := by
    unfold Cluster.handleMsgRpcRequest at h
    split_ifs at h
    rw [← Option.some.inj h]
  unfold Cluster.handleMsgRpc
  rw [htype]
  split_ifs <;> simp at *

theorem handle_held {t : ℕ} {src : MsgSrc} {x : BufMsg} (h : Held all s [x.1])
    (hext : s.ring .ext ≠ none) (hna : BufState.NoAbort k k' booting t src x.2)
    (hh : s.Handles k k' booting t src x.2) :
    Held all (s.handle k k' cap booting t src x).1 [] := by
  unfold BufState.handle
  unfold BufState.Handles at hh
  split_ifs at hh ⊢ with he
  · -- the request is executed and turned into its response
    simp only [BufState.request]
    split_ifs with hb
    · exact h.put
    · simp only [Bool.or_eq_true, not_or, Bool.not_eq_true] at hb
      obtain ⟨m', hm'⟩ := Option.ne_none_iff_exists'.mp (hna he hb.1 hb.2)
      simp only [hm']
      exact route_held cap h hext (handleMsgRpc_response k' hm') (hh hb.1 m' hm')
  · exact route_held cap h hext he hh

theorem collect_held {t id : ℕ} (h : Held all s []) : Held all (s.collect t id) [] := by
  unfold BufState.collect
  cases hr : (s.status t id).response with
  | none => exact h
  | some b => exact (h.empty hr rfl).put

theorem collect_response (t id : ℕ) : ((s.collect t id).status t id).response = none := by
  unfold BufState.collect
  cases hr : (s.status t id).response with
  | none => exact hr
  | some b => simp [BufState.put, BufState.setSlot]

theorem vrpc_held {t d fid : ℕ} {noack : Bool} (h : Held all s []) (hext : s.ring .ext ≠ none)
    (hna : s.pre (.vrpc k k' booting t d fid noack))
    (hh : s.lossless (.vrpc k k' booting t d fid noack)) :
    Held all (s.vrpc k k' cap booting t d fid noack) [] := by
  unfold BufState.vrpc
  cases hp : s.pool with
  | nil => exact h
  | cons b pool =>
    have htake : Held all { s with
        pool, nrMsgs := Function.update s.nrMsgs t ((s.nrMsgs t+1)%2^16) } [b] :=
      (h.take hp).congr fun p => by cases p <;> rfl
    have hdone := handle_held (x := (b, k.vrpc t d (s.nrMsgs t%nrRpcMsg) fid noack)) k k' cap
      booting htake hext hna hh
    dsimp only
    split_ifs
    · exact hdone
    · refine (collect_held hdone).setSlot ?_
      rw [collect_response]

end Calls

section Steps
variable {all : ℕ → Prop} {s : BufState} {cap : ℕ}

theorem ring_setRing (r r' : RingId) (q : Option (List BufMsg)) :
    (s.setRing r q).ring r' = if r' = r then q else s.ring r' :=
  Function.update_apply ..

/-- What a state offers to a message is a matter of its slots and of the rings that exist. -/
theorem Handles.congr {k k' : Cluster ℕ ℕ ℕ} {booting : Bool} {t : ℕ} {src : MsgSrc} {m : RpcMsg ℕ}
    {s' : BufState} (h : s.Handles k k' booting t src m) (hs : s'.status = s.status)
    (hr : ∀ r, s.ring r ≠ none → s'.ring r ≠ none) : s'.Handles k k' booting t src m := by
  have hlands {m : RpcMsg ℕ} {o : RpcOutcome} (hl : s.Lands t m o) : s'.Lands t m o := by
    refine ⟨fun ho => ?_, fun r ho he => hr r (hl.2 r ho he)⟩
    rw [hs]
    exact hl.1 ho
  unfold BufState.Handles at h ⊢
  split_ifs at h ⊢
  · exact fun hb m' hm' => hlands (h hb m' hm')
  · exact hlands h

/-- A call leaves the ring to the port in place. -/
theorem enqueue_ext (r : RingId) (x : BufMsg) (h : s.ring .ext ≠ none) :
    (s.enqueue cap r x).1.ring .ext ≠ none := by
  unfold BufState.enqueue
  cases hr : s.ring r with
  | none => exact h
  | some q =>
    dsimp only
    split_ifs
    · rw [ring_setRing]
      split_ifs
      · exact Option.some_ne_none _
      · exact h
    · exact h

theorem route_ext (t : ℕ) (x : BufMsg) (o : RpcOutcome) (h : s.ring .ext ≠ none) :
    (s.route cap t x o).1.ring .ext ≠ none := by
  cases o with
  | execute => exact h
  | consume =>
    simp only [BufState.route, BufState.respond]
    split_ifs <;> exact h
  | free => exact h
  | ringTx i => exact enqueue_ext _ x h
  | ringRx i => exact enqueue_ext _ x h
  | extTx i => exact enqueue_ext _ x h

theorem handle_ext (k k' : Cluster ℕ ℕ ℕ) (booting : Bool) (t : ℕ) (src : MsgSrc) (x : BufMsg)
    (h : s.ring .ext ≠ none) : (s.handle k k' cap booting t src x).1.ring .ext ≠ none := by
  unfold BufState.handle
  split_ifs
  · simp only [BufState.request]
    split_ifs
    · exact h
    · cases k'.handleMsgRpcRequest t x.2 with
      | none => exact h
      | some m => exact route_ext _ _ _ h
  · exact route_ext _ _ _ h

theorem collect_ring (t id : ℕ) : (s.collect t id).ring = s.ring := by
  unfold BufState.collect
  cases (s.status t id).response <;> rfl

/-- The ring to the port exists after every step. -/
theorem next_ext (a : BufAct) (h : s.ring .ext ≠ none) : (s.next cap a).ring .ext ≠ none := by
  cases a with
  | vrpc k k' booting t d fid noack =>
    simp only [BufState.next, BufState.vrpc]
    cases s.pool with
    | nil => exact h
    | cons b pool =>
      dsimp only
      split_ifs
      · exact handle_ext k k' booting t .me _ h
      · have hc := collect_ring (s := (({ s with
          pool, nrMsgs := Function.update s.nrMsgs t ((s.nrMsgs t+1)%2^16) } : BufState).handle k k'
            cap booting t .me (b, k.vrpc t d (s.nrMsgs t%nrRpcMsg) fid noack)).1)
          t (s.nrMsgs t%nrRpcMsg)
        rw [BufState.setSlot, hc]
        exact handle_ext k k' booting t .me _ h
  | service k k' booting t r =>
    simp only [BufState.next]
    split
    · rename_i x q hr
      apply handle_ext
      rw [ring_setRing]
      split_ifs
      · exact Option.some_ne_none _
      · exact h
    · exact h
  | portRx k k' booting t m =>
    simp only [BufState.next]
    split
    · exact handle_ext k k' booting t .net _ h
    · exact h
  | portTx =>
    simp only [BufState.next]
    split
    · simp [ring_setRing]
    · exact h
  | txDone b => exact h
  | collect t id =>
    simp only [BufState.next, collect_ring]
    exact h
  | setDoFree t id => exact h
  | newThread i => simpa [BufState.next, ring_setRing] using h
  | kill i t => simpa [BufState.next, BufState.kill, ring_setRing] using h

theorem dequeue_held {k k' : Cluster ℕ ℕ ℕ} {booting : Bool} {t : ℕ} {r : RingId}
    (h : Held all s []) (hext : s.ring .ext ≠ none) (hp : s.pre (.service k k' booting t r))
    (hl : s.lossless (.service k k' booting t r)) :
    Held all (s.next cap (.service k k' booting t r)) [] := by
  obtain ⟨hr, x, q, hq, hna⟩ := hp
  simp only [BufState.next, hq]
  have hstay (r' : RingId) (h' : s.ring r' ≠ none) : (s.setRing r (some q)).ring r' ≠ none := by
    rw [ring_setRing]
    split_ifs
    · exact Option.some_ne_none q
    · exact h'
  exact handle_held k k' cap booting (h.dequeue hq) (hstay .ext hext) hna
    (Handles.congr (hl x q hq) rfl hstay)

theorem portRx_held {k k' : Cluster ℕ ℕ ℕ} {booting : Bool} {t : ℕ} {m : RpcMsg ℕ}
    (h : Held all s []) (hext : s.ring .ext ≠ none) (hp : s.pre (.portRx k k' booting t m))
    (hl : s.lossless (.portRx k k' booting t m)) :
    Held all (s.next cap (.portRx k k' booting t m)) [] := by
  obtain ⟨hne, hna⟩ := hp
  obtain ⟨b, pool, hb⟩ := List.exists_cons_of_ne_nil hne
  simp only [BufState.next, hb]
  exact handle_held (x := (b, m)) k k' cap booting (h.take hb) hext hna hl

/-- From the ring to the port, and back from there. -/
theorem portTx_held (h : Held all s []) (hp : s.pre .portTx) : Held all (s.next cap .portTx) [] := by
  obtain ⟨x, q, hq⟩ := hp
  simp only [BufState.next, hq]
  refine (h.dequeue hq).move (p := BufPlace.hand) (q := BufPlace.net) (by simp)
    (List.Perm.refl [x.1]) (List.Perm.refl _) ?_
  intro r h1 h2
  cases r with
  | net => exact absurd rfl h2
  | hand => exact absurd rfl h1
  | _ => rfl

theorem txDone_held {b : ℕ} (h : Held all s []) (hp : s.pre (.txDone b)) :
    Held all (s.next cap (.txDone b)) [] := by
  refine h.move (p := BufPlace.net) (q := BufPlace.pool) (by simp) (List.perm_cons_erase hp)
    (List.Perm.refl _) ?_
  intro r h1 h2
  cases r with
  | net => exact absurd rfl h1
  | pool => exact absurd rfl h2
  | _ => rfl

/-- Rings that held nothing are created or freed, and slots that held nothing are gone. -/
theorem empty_rings_held {i : ℕ} {q : Option (List BufMsg)} (h : Held all s [])
    (hrx : (s.ring (.rx i)).getD [] = []) (htx : (s.ring (.tx i)).getD [] = [])
    (hq : q.getD [] = []) : Held all ((s.setRing (.rx i) q).setRing (.tx i) q) [] := by
  refine h.congr fun p => ?_
  cases p with
  | ring r =>
    rw [holds_setRing, holds_setRing, hq]
    split_ifs with h1 h2
    · rw [h1, BufState.holds, htx]
    · rw [h2, BufState.holds, hrx]
    · rfl
  | _ => rfl

theorem kill_held {i t : ℕ} (h : Held all s []) (hl : s.lossless (.kill i t)) :
    Held all (s.kill i t) [] := by
  obtain ⟨hrx, htx, hslots⟩ := hl
  refine (empty_rings_held (q := none) h hrx htx rfl).congr fun p => ?_
  cases p with
  | slot t' id =>
    by_cases ht : t' = t
    · subst ht
      simp [BufState.holds, BufState.kill, BufState.setRing, hslots id]
    · simp [BufState.holds, BufState.kill, BufState.setRing, ht]
  | _ => rfl

/-- One step that loses nothing moves buffers from place to place. -/
theorem next_held (a : BufAct) (h : Held all s []) (hext : s.ring .ext ≠ none) (hp : s.pre a)
    (hl : s.lossless a) : Held all (s.next cap a) [] := by
  cases a with
  | vrpc k k' booting t d fid noack => exact vrpc_held k k' cap booting h hext hp hl
  | service k k' booting t r => exact dequeue_held h hext hp hl
  | portRx k k' booting t m => exact portRx_held h hext hp hl
  | portTx => exact portTx_held h hp
  | txDone b => exact txDone_held h hp
  | collect t id => exact collect_held h
  | setDoFree t id => exact h.setSlot rfl
  | newThread i =>
    obtain ⟨hrx, htx⟩ := hp
    exact empty_rings_held (q := some []) h (by rw [hrx]; rfl) (by rw [htx]; rfl) rfl
  | kill i t => exact kill_held h hl

end Steps

/-- At the start all buffers are in the mempool. -/
theorem init_held {cap n : ℕ} {s : BufState} (h : (bufSystem cap n).init s) :
    Held (· < n) s [] := by
  rw [show s = _ from h]
  intro b hb
  refine ⟨.pool, ?_, ?_⟩
  · exact List.count_eq_one_of_mem List.nodup_range (List.mem_range.mpr hb)
  · intro p hp
    cases p with
    | pool => exact absurd rfl hp
    | ring r =>
      simp only [BufState.holds]
      split_ifs <;> simp
    | _ => simp [BufState.holds]

/-- In every run in which no message is routed to a thread without rings, no response
arrives at a slot that holds one, and no thread is killed with messages in its rings or
slots, every buffer is in exactly one place after every step. -/
theorem buffers_conserved (cap n : ℕ) (s : BufState)
    (h : ((bufSystem cap n).restrict fun s a => s.lossless a).Reachable s) :
    Conserved (· < n) (s.holds []) := by
  have hinv : Held (· < n) s [] ∧ s.ring .ext ≠ none := by
    refine h.invariant (P := fun s => Held (· < n) s [] ∧ s.ring .ext ≠ none) ?_ ?_
    · intro s hs
      refine ⟨init_held (show (bufSystem cap n).init s from hs), ?_⟩
      rw [show s = _ from hs]
      simp
    · rintro s a ⟨hheld, hext⟩ ⟨hp, hl⟩
      exact ⟨next_held a hheld hext hp hl, next_ext a hext⟩
  exact hinv.1

theorem lands_ring {s : BufState} {t : ℕ} {m : RpcMsg ℕ} {o : RpcOutcome} {r : RingId}
    (ho : BufState.ringOf o = some r) (hr : s.ring r ≠ none) : s.Lands t m o := by
  constructor
  · rintro rfl
    cases ho
  · intro r' hr' _
    rw [ho] at hr'
    rw [← Option.some.inj hr']
    exact hr

theorem handles_ring {k k' : Cluster ℕ ℕ ℕ} {booting : Bool} {s : BufState} {t : ℕ} {src : MsgSrc}
    {m : RpcMsg ℕ} {r : RingId} (ho : BufState.ringOf (k.handleMsgRpc t src m) = some r)
    (hr : s.ring r ≠ none) : s.Handles k k' booting t src m := by
  unfold BufState.Handles
  split_ifs with he
  · rw [he] at ho
    cases ho
  · exact lands_ring ho hr

/-- A daemon and the threads 1 and 2 on one node; thread 2 owns every area and is ahead. -/
def pairNode : Cluster ℕ ℕ ℕ where
  nodes := [0]
  nodeOf := fun _ => 0
  daemon := fun _ => 0
  tid := fun t => { nid := 7, idx := t, pid := 100+t }
  running := fun _ => true
  mac := fun _ => 7
  ringRxReader := fun _ i => some i
  owner := fun _ _ => 2
  isLocal := fun _ _ => true
  version := fun t _ => if t = 2 then 2 else 1

/-- Thread 1 sends a request, the daemon passes it on, and thread 2 executes it and
sends the response to the daemon. -/
def requestRun : List BufAct :=
  [.newThread 1, .newThread 2, .vrpc pairNode pairNode false 1 5 0 false,
    .service pairNode pairNode false 0 (.tx 1), .service pairNode pairNode false 2 (.rx 2)]

def pairStart : BufState where
  pool := [0]
  ring := fun r => if r = .rx 0 ∨ r = .tx 0 ∨ r = .ext then some [] else none
  net := []
  status := fun _ _ => {}
  nrMsgs := fun _ => 0

theorem request_enabled : (bufSystem 16 1).Enabled pairStart requestRun := by
  refine ⟨⟨rfl, rfl⟩, ⟨rfl, rfl⟩, ?_, ⟨by decide, _, _, rfl, ?_⟩, ⟨by decide, _, _, rfl, ?_⟩, trivial⟩
  · intro h
    exact absurd h (by decide)
  · intro h
    exact absurd h (by decide)
  · intro _ _ _
    exact Option.some_ne_none _

/-- The response reaches the slot of the request. -/
theorem buffers_conserved_request :
    ∃ s, ((bufSystem 16 1).restrict fun s a => s.lossless a).Reachable s ∧
      (s.status 1 0).response = some 0 ∧ Conserved (· < 1) (s.holds []) := by
  have hstart : ((bufSystem 16 1).restrict fun s a => s.lossless a).Reachable pairStart := .init rfl
  have hrun := hstart.run (requestRun ++
    [.service pairNode pairNode false 0 (.tx 2), .service pairNode pairNode false 1 (.rx 1)]) ?_
  · exact ⟨_, hrun, rfl, buffers_conserved 16 1 _ hrun⟩
  · obtain ⟨h1, h2, h3, h4, h5, -⟩ := request_enabled
    refine ⟨⟨h1, trivial⟩, ⟨h2, trivial⟩, ⟨h3, ?_⟩, ⟨h4, ?_⟩, ⟨h5, ?_⟩,
      ⟨⟨by decide, _, _, rfl, ?_⟩, ?_⟩, ⟨⟨by decide, _, _, rfl, ?_⟩, ?_⟩, trivial⟩
    · exact handles_ring (r := .tx 1) rfl (Option.some_ne_none _)
    · rintro x q hq
      cases hq
      exact handles_ring (r := .rx 2) rfl (Option.some_ne_none _)
    · rintro x q hq
      cases hq
      rw [BufState.Handles, if_pos (by decide)]
      intro _ m' hm'
      cases hm'
      exact lands_ring (r := .tx 2) rfl (Option.some_ne_none _)
    · intro h
      exact absurd h (by decide)
    · rintro x q hq
      cases hq
      exact handles_ring (r := .rx 1) rfl (Option.some_ne_none _)
    · intro h
      exact absurd h (by decide)
    · rintro x q hq
      cases hq
      rw [BufState.Handles, if_neg (by decide)]
      refine ⟨fun _ => rfl, fun r hr => ?_⟩
      cases hr

/-- The thread that sent the request is killed before the daemon looks at the response:
its ring is NULL, and the only buffer is nowhere. -/
theorem response_to_killed_thread :
    ∃ s, (bufSystem 16 1).Reachable s ∧ ¬ Conserved (· < 1) (s.holds []) := by
  have hstart : (bufSystem 16 1).Reachable pairStart := .init rfl
  have hrun := hstart.run (requestRun ++ [.kill 1 1, .service pairNode pairNode false 0 (.tx 2)]) ?_
  · refine ⟨_, hrun, fun hc => ?_⟩
    obtain ⟨p, hp, -⟩ := hc 0 (by decide)
    match p with
    | .pool | .net | .hand => exact absurd hp (by decide)
    | .ring .ext => exact absurd hp (by decide)
    | .ring (.rx 0) | .ring (.rx 1) | .ring (.rx 2) => exact absurd hp (by decide)
    | .ring (.tx 0) | .ring (.tx 1) | .ring (.tx 2) => exact absurd hp (by decide)
    | .ring (.rx (i+3)) | .ring (.tx (i+3)) => exact absurd (show 0 = 1 from hp) (by decide)
    | .slot 0 id | .slot 1 id | .slot (t+2) id => exact absurd (show 0 = 1 from hp) (by decide)
  · obtain ⟨h1, h2, h3, h4, h5, -⟩ := request_enabled
    refine ⟨h1, h2, h3, h4, h5, trivial, ⟨by decide, _, _, rfl, ?_⟩, trivial⟩
    intro h
    exact absurd h (by decide)

end Tasvir
