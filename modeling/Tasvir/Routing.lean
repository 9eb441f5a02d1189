import Mathlib.Tactic

/-! How RPC messages travel: `tasvir_handle_msg_rpc` in its daemon and its
application build, the rings between the threads of a node, and the network
between the daemons. -/
namespace Tasvir

/-- `tasvir_tid`; a node id is a MAC address. -/
structure Tid where
  nid : ℕ
  idx : ℕ
  pid : ℕ
deriving DecidableEq, Repr

/-- `(uint16_t)-1`, the index in the tids that name no thread. -/
def noIdx : ℕ := 2^16-1

/-- The multicast addresses of `memcast_tid` and `rpccast_tid`. -/
def memcastMac : ℕ := 0x01005e010fff
def rpccastMac : ℕ := 0x01005e020fff

/-- `tasvir_msg_type`. -/
inductive MsgType
  | invalid | mem | rpcRequest | rpcResponse
deriving DecidableEq, Repr

/-- `tasvir_msg_src`. -/
inductive MsgSrc
  | invalid | me | loc | net
deriving DecidableEq, Repr

/-- The header of `tasvir_msg_rpc`; `noack` is TASVIR_FN_NOACK of the function `fid` names. -/
structure RpcMsg (A : Type) where
  type : MsgType
  id : ℕ
  srcTid : Tid
  dstTid : Tid
  d : A
  version : ℕ
  fid : ℕ
  noack : Bool

/-- Nodes, threads and areas as the routing code sees them. -/
structure Cluster (N T A : Type) where
  nodes : List N
  nodeOf : T → N
  /-- the thread of the node that runs the daemon build -/
  daemon : N → T
  tid : T → Tid
  running : T → Bool
  /-- `ndata->mac_addr`, also the node id in `boot_tid` -/
  mac : N → ℕ
  /-- the thread that dequeues from `tdata[idx].ring_rx` -/
  ringRxReader : N → ℕ → Option T
  /-- `d->owner` and TASVIR_AREA_FLAG_LOCAL in the node's copy -/
  owner : N → A → T
  isLocal : N → A → Bool
  /-- `d->h->version` in the thread's mapping -/
  version : T → A → ℕ

/-- What one call of `tasvir_handle_msg_rpc` does with the message. -/
inductive RpcOutcome
  /-- runs `tasvir_handle_msg_rpc_request` or `tasvir_handle_msg_rpc_response` -/
  | execute
  | consume
  /-- returns the buffer to the mempool -/
  | free
  /-- enqueues to `tdata[idx].ring_tx`, `tdata[idx].ring_rx` or, as a frame, `ring_ext_tx` -/
  | ringTx (idx : ℕ)
  | ringRx (idx : ℕ)
  | extTx (dhost : ℕ)
deriving DecidableEq, Repr

/-- The outcomes after which the message goes no further. -/
def RpcOutcome.ends : RpcOutcome → Bool
  | .execute | .consume | .free => true
  | .ringTx _ | .ringRx _ | .extTx _ => false

namespace Cluster
variable {N T A : Type} [DecidableEq N] [DecidableEq T] (k : Cluster N T A)

/-- `tasvir_vrpc`, addressing. -/
def vrpc (t : T) (d : A) (id fid : ℕ) (noack : Bool) : RpcMsg A where
  type := .rpcRequest
  id := id
  srcTid := k.tid t
  dstTid := if k.running (k.owner (k.nodeOf t) d) then k.tid (k.owner (k.nodeOf t) d)
    else { nid := rpccastMac, idx := noIdx, pid := 2^32-1 }
  d := d
  version := k.version t d
  fid := fid
  noack := noack

/-- `is_dst_local`. -/
def isDstLocal (t : T) (m : RpcMsg A) : Bool :=
  if m.type = .rpcRequest then k.isLocal (k.nodeOf t) m.d else m.dstTid.nid = k.mac (k.nodeOf t)

/-- `is_dst_me`. -/
def isDstMe (t : T) (m : RpcMsg A) : Bool :=
  k.isDstLocal t m &&
    (if m.type = .rpcRequest then decide (k.owner (k.nodeOf t) m.d = t)
    else decide (m.dstTid = k.tid t))

/-- `tasvir_handle_msg_rpc` at thread `t`. -/
def handleMsgRpc (t : T) (src : MsgSrc) (m : RpcMsg A) : RpcOutcome :=
  if m.type ≠ .rpcRequest ∧ m.type ≠ .rpcResponse then .free
  else if src = .net ∧ k.isDstLocal t m = false then .free
  else if k.isDstMe t m then (if m.type = .rpcRequest then .execute else .consume)
  else if t = k.daemon (k.nodeOf t) then
    if k.isDstLocal t m then .ringRx (if m.dstTid.idx = noIdx then 0 else m.dstTid.idx)
    else .extTx m.dstTid.nid
  else .ringTx (k.tid t).idx

/-- `tasvir_service_port_rx` hands a frame on to `tasvir_handle_msg_rpc`. -/
def portRx (n : N) (dhost : ℕ) : Bool :=
  dhost ≠ memcastMac && (dhost = k.mac n || dhost = rpccastMac)

/-- The calls of `tasvir_handle_msg_rpc` that follow from what a thread of node
`n` did: the daemon services the `ring_tx` of every slot, a thread its own
`ring_rx`, and a frame reaches the port of every other node. -/
def calls (n : N) : RpcOutcome → List (T × MsgSrc)
  | .ringTx _ => [(k.daemon n, .loc)]
  | .ringRx idx => (k.ringRxReader n idx).toList.map fun t => (t, .loc)
  | .extTx dhost =>
    (k.nodes.filter fun n' => n' ≠ n && k.portRx n' dhost).map fun n' => (k.daemon n', .net)
  | .execute | .consume | .free => []

/-- All calls of `tasvir_handle_msg_rpc` for a message, to the given depth, with
what each of them did. -/
def trace : ℕ → T → MsgSrc → RpcMsg A → List (T × RpcOutcome)
  | 0, _, _, _ => []
  | fuel+1, t, src, m =>
    (t, k.handleMsgRpc t src m) ::
      (k.calls (k.nodeOf t) (k.handleMsgRpc t src m)).flatMap fun c => trace fuel c.1 c.2 m

/-- `tasvir_handle_msg_rpc_request` once the function has run: the response, if
there is one. An abort is `none`. -/
def handleMsgRpcRequest (t : T) (m : RpcMsg A) : Option (RpcMsg A) :=
  if m.noack then none
  else if k.owner (k.nodeOf t) m.d ≠ t then none
  else if m.version = k.version t m.d then none
  else some { m with
    dstTid := m.srcTid
    srcTid := k.tid t
    type := .rpcResponse
    version := k.version t m.d }

/-- A settled cluster: all nodes agree on the owners, LOCAL is set on the owner's
node only, tids are distinct, and every thread runs and reads its ring. -/
structure Wf : Prop where
  nodes_nodup : k.nodes.Nodup
  nodes_mem : ∀ n, n ∈ k.nodes
  daemon_node : ∀ n, k.nodeOf (k.daemon n) = n
  tid_nid : ∀ t, (k.tid t).nid = k.mac (k.nodeOf t)
  tid_idx : ∀ t, (k.tid t).idx ≠ noIdx
  tid_inj : ∀ t t', k.tid t = k.tid t' → t = t'
  mac_inj : ∀ n n', k.mac n = k.mac n' → n = n'
  mac_unicast : ∀ n, k.mac n ≠ memcastMac ∧ k.mac n ≠ rpccastMac
  running : ∀ t, k.running t = true
  ring : ∀ t, t ≠ k.daemon (k.nodeOf t) → k.ringRxReader (k.nodeOf t) (k.tid t).idx = some t
  owner_agree : ∀ n n' d, k.owner n d = k.owner n' d
  isLocal_iff : ∀ n d, k.isLocal n d = true ↔ k.nodeOf (k.owner n d) = n

/-- The message ends the way of a request or of a response. -/
def final (m : RpcMsg A) : RpcOutcome := if m.type = .rpcRequest then .execute else .consume

/-- Every thread takes `o` for the destination of `m`. -/
structure Addressed (m : RpcMsg A) (o : T) : Prop where
  type : m.type = .rpcRequest ∨ m.type = .rpcResponse
  isDstLocal : ∀ t, k.isDstLocal t m = true ↔ k.nodeOf t = k.nodeOf o
  isDstMe : ∀ t, k.isDstMe t m = true ↔ t = o
  dstTid : m.dstTid = k.tid o

variable {k} {m : RpcMsg A} {o : T}

section
variable (hk : k.Wf) (hm : k.Addressed m o)
include hk hm

omit [DecidableEq N] hk in
theorem handleMsgRpc_owner (src : MsgSrc) : k.handleMsgRpc o src m = final m := by
  have hlocal : k.isDstLocal o m = true := (hm.isDstLocal o).mpr rfl
  have hme : k.isDstMe o m = true := (hm.isDstMe o).mpr rfl
  have htype : ¬(m.type ≠ .rpcRequest ∧ m.type ≠ .rpcResponse) := by
    rcases hm.type with h | h <;> simp [h]
  simp [handleMsgRpc, htype, hlocal, hme, final]

/-- A thread other than the destination passes the message on. -/
theorem handleMsgRpc_forward (t : T) (ht : t ≠ o) (src : MsgSrc)
    (hsrc : src = .net → k.nodeOf t = k.nodeOf o) :
    k.handleMsgRpc t src m =
      if t = k.daemon (k.nodeOf t) then
        if k.nodeOf t = k.nodeOf o then .ringRx (k.tid o).idx else .extTx (k.mac (k.nodeOf o))
      else .ringTx (k.tid t).idx := by
  have htype : ¬(m.type ≠ .rpcRequest ∧ m.type ≠ .rpcResponse) := by
    rcases hm.type with h | h <;> simp [h]
  have hnet : ¬(src = .net ∧ k.isDstLocal t m = false) := by
    rintro ⟨hs, hl⟩
    rw [(hm.isDstLocal t).mpr (hsrc hs)] at hl
    cases hl
  have hme : ¬k.isDstMe t m = true := fun h => ht ((hm.isDstMe t).mp h)
  rw [handleMsgRpc, if_neg htype, if_neg hnet, if_neg hme, hm.dstTid, if_neg (hk.tid_idx o),
    hk.tid_nid o]
  simp only [hm.isDstLocal t]

omit [DecidableEq T] hm in
/-- A frame to the node of `o` reaches the daemon of that node and no other. -/
theorem calls_extTx (n : N) (hn : n ≠ k.nodeOf o) :
    k.calls n (.extTx (k.mac (k.nodeOf o))) = [(k.daemon (k.nodeOf o), .net)] := by
  have hfilter : (k.nodes.filter fun n' => n' ≠ n && k.portRx n' (k.mac (k.nodeOf o))) =
      k.nodes.filter fun n' => n' = k.nodeOf o := by
    apply List.filter_congr
    intro n' _
    have hmac : k.mac (k.nodeOf o) = k.mac n' ↔ n' = k.nodeOf o :=
      ⟨fun h => (hk.mac_inj _ _ h).symm, fun h => by rw [h]⟩
    have huni := hk.mac_unicast (k.nodeOf o)
    by_cases h : n' = k.nodeOf o
    · simp [portRx, h, hn.symm, huni.1]
    · simp [portRx, hmac, h, huni.2]
  rw [calls, hfilter, List.filter_eq, List.count_eq_one_of_mem hk.nodes_nodup (hk.nodes_mem _)]
  rfl

omit hk in
theorem trace_owner (fuel : ℕ) (src : MsgSrc) :
    k.trace (fuel+1) o src m = [(o, final m)] := by
  rw [trace, handleMsgRpc_owner hm]
  rcases hm.type with h | h <;> simp [final, h, calls]

/-- From the daemon of the destination's node. -/
theorem trace_ownerDaemon (fuel : ℕ) (src : MsgSrc) :
    k.trace (fuel+2) (k.daemon (k.nodeOf o)) src m =
      if k.daemon (k.nodeOf o) = o then [(o, final m)]
      else [(k.daemon (k.nodeOf o), .ringRx (k.tid o).idx), (o, final m)] := by
  have hnode := hk.daemon_node (k.nodeOf o)
  by_cases hd : k.daemon (k.nodeOf o) = o
  · rw [if_pos hd, hd]
    exact trace_owner hm (fuel+1) src
  · have hring := hk.ring o (fun h => hd h.symm)
    rw [if_neg hd, trace, handleMsgRpc_forward hk hm _ hd src (fun _ => hnode)]
    simp [hnode, calls, hring, trace_owner hm fuel]

/-- From the daemon of any node, for a message that did not come from the network. -/
theorem trace_daemon (fuel : ℕ) (n : N) (src : MsgSrc) (hsrc : src ≠ .net) :
    k.trace (fuel+3) (k.daemon n) src m =
      if n = k.nodeOf o then k.trace (fuel+2) (k.daemon (k.nodeOf o)) .net m
      else (k.daemon n, .extTx (k.mac (k.nodeOf o))) ::
        k.trace (fuel+2) (k.daemon (k.nodeOf o)) .net m := by
  have hnode := hk.daemon_node n
  by_cases hn : n = k.nodeOf o
  · rw [if_pos hn, hn, trace_ownerDaemon hk hm, trace_ownerDaemon hk hm]
  · have hne : k.daemon n ≠ o := fun h => hn (by rw [← h, hnode])
    rw [if_neg hn, trace, handleMsgRpc_forward hk hm _ hne src (fun h => absurd h hsrc)]
    simp [hnode, hn, calls_extTx hk n hn]

theorem trace_sender (fuel : ℕ) (t : T) (ht : t ≠ o) :
    k.trace (fuel+4) t .me m =
      if t = k.daemon (k.nodeOf t) then k.trace (fuel+3) (k.daemon (k.nodeOf t)) .loc m
      else (t, .ringTx (k.tid t).idx) :: k.trace (fuel+3) (k.daemon (k.nodeOf t)) .loc m := by
  by_cases hd : t = k.daemon (k.nodeOf t)
  · rw [if_pos hd, trace_daemon hk hm fuel _ .loc (by decide)]
    conv_lhs => rw [hd]
    rw [trace_daemon hk hm (fuel+1) _ .me (by decide), trace_ownerDaemon hk hm,
      trace_ownerDaemon hk hm]
  · rw [if_neg hd, trace, handleMsgRpc_forward hk hm t ht .me (by simp)]
    simp [hd, calls]

end

/-- A message entered at `t` passes through `t`, its daemon, the daemon of `o` and
`o`, each once and no other thread, and ends at `o` only. -/
def Delivers (k : Cluster N T A) (fuel : ℕ) (t o : T) (m : RpcMsg A) (e : RpcOutcome) : Prop :=
  (k.trace fuel t .me m).map Prod.fst =
    [t, k.daemon (k.nodeOf t), k.daemon (k.nodeOf o), o].dedup ∧
  (k.trace fuel t .me m).length ≤ 4 ∧
  ((k.trace fuel t .me m).map Prod.fst).Nodup ∧
  (k.trace fuel t .me m).filter (fun c => c.2.ends) = [(o, e)]

theorem final_ends (m : RpcMsg A) : (final m).ends = true := by
  unfold final
  split <;> rfl

theorem delivers_of_addressed (hk : k.Wf) (hm : k.Addressed m o) (t : T) (ht : t ≠ o) (fuel : ℕ)
    (hf : 4 ≤ fuel) : k.Delivers fuel t o m (final m) := by
  obtain ⟨f, rfl⟩ := Nat.exists_eq_add_of_le' hf
  have hpath : (k.trace (f+4) t .me m).map Prod.fst =
      [t, k.daemon (k.nodeOf t), k.daemon (k.nodeOf o), o].dedup := by
    rw [trace_sender hk hm f t ht, trace_daemon hk hm f _ .loc (by decide),
      trace_ownerDaemon hk hm]
    -- a daemon of another node is not `o`, and an application thread is no daemon
    have hdn := hk.daemon_node
    by_cases h1 : t = k.daemon (k.nodeOf t)
    · by_cases h2 : k.nodeOf t = k.nodeOf o
      · by_cases h3 : k.daemon (k.nodeOf o) = o
        · exact absurd (h1.trans (by rw [h2, h3])) ht
        · rw [if_pos h1, if_pos h2, if_neg h3, ← h2, ← h1]
          simp [List.dedup_cons_of_mem, List.dedup_cons_of_notMem, ht]
      · have hne : k.daemon (k.nodeOf t) ≠ k.daemon (k.nodeOf o) := by
          intro h
          exact h2 (by rw [← hdn (k.nodeOf t), h, hdn])
        by_cases h3 : k.daemon (k.nodeOf o) = o
        · rw [if_pos h1, if_neg h2, if_pos h3, ← h1, h3]
          simp [List.dedup_cons_of_mem, List.dedup_cons_of_notMem, ht]
        · rw [if_pos h1, if_neg h2, if_neg h3, ← h1]
          rw [← h1] at hne
          simp [List.dedup_cons_of_mem, List.dedup_cons_of_notMem, ht, hne, h3]
    · have hto : ∀ n, t ≠ k.daemon n := by
        intro n h
        exact h1 (by rw [h, hdn])
      by_cases h2 : k.nodeOf t = k.nodeOf o
      · by_cases h3 : k.daemon (k.nodeOf o) = o
        · rw [if_neg h1, if_pos h2, if_pos h3, h2, h3]
          simp [List.dedup_cons_of_mem, List.dedup_cons_of_notMem, ht]
        · rw [if_neg h1, if_pos h2, if_neg h3, h2]
          simp [List.dedup_cons_of_mem, List.dedup_cons_of_notMem, ht, hto, h3]
      · have hne : k.daemon (k.nodeOf t) ≠ k.daemon (k.nodeOf o) := by
          intro h
          exact h2 (by rw [← hdn (k.nodeOf t), h, hdn])
        have hdo : k.daemon (k.nodeOf t) ≠ o := by
          intro h
          exact h2 (by rw [← hdn (k.nodeOf t), h])
        by_cases h3 : k.daemon (k.nodeOf o) = o
        · rw [if_neg h1, if_neg h2, if_pos h3, h3]
          simp [List.dedup_cons_of_mem, List.dedup_cons_of_notMem, ht, hto, hdo]
        · rw [if_neg h1, if_neg h2, if_neg h3]
          simp [List.dedup_cons_of_notMem, ht, hto, hne, hdo, h3]
  refine ⟨hpath, ?_, ?_, ?_⟩
  · rw [← List.length_map (f := Prod.fst), hpath]
    exact (List.dedup_sublist _).length_le
  · rw [hpath]
    exact List.nodup_dedup _
  · rw [trace_sender hk hm f t ht, trace_daemon hk hm f _ .loc (by decide),
      trace_ownerDaemon hk hm]
    have hfin := final_ends m
    have htx (idx : ℕ) : (RpcOutcome.ringTx idx).ends = false := rfl
    have hrx (idx : ℕ) : (RpcOutcome.ringRx idx).ends = false := rfl
    have hext (dhost : ℕ) : (RpcOutcome.extTx dhost).ends = false := rfl
    split <;> split <;> split <;> simp [htx, hrx, hext, hfin]

omit [DecidableEq N] in
theorem addressed_request (hk : k.Wf) (t : T) (d : A) (id fid : ℕ) (noack : Bool) :
    k.Addressed (k.vrpc t d id fid noack) (k.owner (k.nodeOf t) d) := by
  have hlocal : ∀ t', k.isDstLocal t' (k.vrpc t d id fid noack) = true ↔
      k.nodeOf t' = k.nodeOf (k.owner (k.nodeOf t) d) := by
    intro t'
    simp only [isDstLocal, vrpc, ↓reduceIte]
    rw [hk.isLocal_iff, hk.owner_agree (k.nodeOf t') (k.nodeOf t) d, eq_comm]
  refine ⟨Or.inl rfl, hlocal, ?_, ?_⟩
  · intro t'
    simp only [isDstMe, Bool.and_eq_true, hlocal]
    simp only [vrpc, ↓reduceIte, decide_eq_true_eq, hk.owner_agree (k.nodeOf t') (k.nodeOf t) d]
    constructor
    · intro h
      exact h.2.symm
    · intro h
      exact ⟨by rw [h], h.symm⟩
  · simp [vrpc, hk.running]

omit [DecidableEq N] in
theorem addressed_response (hk : k.Wf) (t : T) (hm : m.type = .rpcResponse)
    (hdst : m.dstTid = k.tid t) : k.Addressed m t := by
  have hlocal : ∀ t', k.isDstLocal t' m = true ↔ k.nodeOf t' = k.nodeOf t := by
    intro t'
    simp only [isDstLocal, hm, reduceCtorEq, ↓reduceIte, decide_eq_true_eq, hdst, hk.tid_nid]
    constructor
    · intro h
      exact (hk.mac_inj _ _ h).symm
    · intro h
      rw [h]
  refine ⟨Or.inr hm, hlocal, ?_, hdst⟩
  intro t'
  simp only [isDstMe, Bool.and_eq_true, hlocal, hm, reduceCtorEq, ↓reduceIte, decide_eq_true_eq, hdst]
  constructor
  · intro h
    exact (hk.tid_inj _ _ h.2).symm
  · intro h
    exact ⟨by rw [h], by rw [h]⟩

end Cluster

/-- A request of `t` on `d` is executed once, by the owner, and its response is
consumed once, by `t`. -/
def Cluster.Routes {N T A : Type} [DecidableEq N] [DecidableEq T] (k : Cluster N T A) (fuel : ℕ)
    (t : T) (d : A) (id fid : ℕ) (noack : Bool) : Prop :=
  k.Delivers fuel t (k.owner (k.nodeOf t) d) (k.vrpc t d id fid noack) .execute ∧
  (noack = false → ∃ m,
    k.handleMsgRpcRequest (k.owner (k.nodeOf t) d) (k.vrpc t d id fid noack) = some m ∧
    m.dstTid = k.tid t ∧ m.id = id ∧ m.d = d ∧
    k.Delivers fuel (k.owner (k.nodeOf t) d) t m .consume)

/-- A request on an area that the sender does not own always reaches the owner. The response
does so exactly when the sender and the owner have different versions of the area: on equal ones
`tasvir_handle_msg_rpc_request` aborts. -/
theorem rpc_routing_iff {N T A : Type} [DecidableEq N] [DecidableEq T] (k : Cluster N T A)
    (hk : k.Wf) (t : T) (d : A) (ht : t ≠ k.owner (k.nodeOf t) d) (id fid : ℕ) (noack : Bool)
    (fuel : ℕ) (hf : 4 ≤ fuel) :
    k.Delivers fuel t (k.owner (k.nodeOf t) d) (k.vrpc t d id fid noack) .execute ∧
    (k.Routes fuel t d id fid noack ↔
      noack = true ∨ k.version t d ≠ k.version (k.owner (k.nodeOf t) d) d) := by
  have hreq := Cluster.addressed_request hk t d id fid noack
  have hdel := Cluster.delivers_of_addressed hk hreq t ht fuel hf
  refine ⟨hdel, ?_⟩
  constructor
  · rintro ⟨-, hresp⟩
    by_contra hno
    rw [not_or, Bool.not_eq_true, not_not] at hno
    obtain ⟨m, hm, -⟩ := hresp hno.1
    -- the abort
    simp [Cluster.handleMsgRpcRequest, Cluster.vrpc, hno.1, hno.2] at hm
  · intro hver
    refine ⟨hdel, ?_⟩
    intro hack
    subst hack
    have hown : k.owner (k.nodeOf (k.owner (k.nodeOf t) d)) d = k.owner (k.nodeOf t) d :=
      hk.owner_agree _ _ d
    have hne : k.version t d ≠ k.version (k.owner (k.nodeOf t) d) d :=
      hver.resolve_left Bool.false_ne_true
    refine ⟨{ k.vrpc t d id fid false with
      dstTid := k.tid t
      srcTid := k.tid (k.owner (k.nodeOf t) d)
      type := .rpcResponse
      version := k.version (k.owner (k.nodeOf t) d) d },
      by simp [Cluster.handleMsgRpcRequest, Cluster.vrpc, hown, hne], rfl, rfl, rfl, ?_⟩
    apply Cluster.delivers_of_addressed hk _ _ ht.symm fuel hf
    exact Cluster.addressed_response hk t rfl rfl

/-- Two nodes with a daemon and one application thread each; the application
thread of node `true` owns the only area. -/
def twoNodes : Cluster Bool (Bool × Bool) Unit where
  nodes := [false, true]
  nodeOf := Prod.fst
  daemon := fun n => (n, false)
  tid := fun t => { nid := cond t.1 2 1, idx := cond t.2 1 0, pid := cond t.2 20 10 }
  running := fun _ => true
  mac := fun n => cond n 2 1
  ringRxReader := fun n idx => if idx = 1 then some (n, true) else none
  owner := fun _ _ => (true, true)
  isLocal := fun n _ => n
  version := fun t _ => if t = (true, true) then 2 else 1

/-- The area has just come to its owner from a thread of the other node: nobody is ahead. -/
def movedArea : Cluster Bool (Bool × Bool) Unit := { twoNodes with version := fun _ _ => 1 }

theorem twoNodes_wf : twoNodes.Wf := by
  constructor <;> decide

theorem movedArea_wf : movedArea.Wf := by
  constructor <;> decide

theorem rpc_routing_iff_two_nodes :
    twoNodes.Wf ∧ twoNodes.Routes 4 (false, true) () 7 3 false :=
  ⟨twoNodes_wf, (rpc_routing_iff twoNodes twoNodes_wf (false, true) () (by decide) 7 3 false 4
    (by decide)).2.mpr (.inr (by decide))⟩

/-- The request reaches the owner, which aborts instead of responding. -/
theorem equal_versions_abort :
    movedArea.Wf ∧ (false, true) ≠ movedArea.owner false () ∧
      ¬movedArea.Routes 4 (false, true) () 7 3 false := by
  have habort : movedArea.handleMsgRpcRequest (movedArea.owner (movedArea.nodeOf (false, true)) ())
      (movedArea.vrpc (false, true) () 7 3 false) = none := by decide
  refine ⟨movedArea_wf, by decide, ?_⟩
  rintro ⟨-, hresp⟩
  obtain ⟨m, hm, -⟩ := hresp rfl
  rw [habort] at hm
  cases hm

end Tasvir
