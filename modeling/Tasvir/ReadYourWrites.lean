import Mathlib.Tactic
import Tasvir.Feed
import Tasvir.LongRun
import Tasvir.Machine

/-! RPCs on an area and what their callers see of it: the response carries the
owner's RW version, and the caller waits until its RO copy has that version. -/
namespace Tasvir
open RunLength Machine

/-- What a response says of the area: its `version`, and for every cell the number
of the last write to it that was logged when the response was built. -/
structure AreaAnswer where
  version : ℕ
  logged : ℕ → ℕ

/-- An RPC of a thread that is not the owner; `node` is `none` on the owner's node. -/
structure AreaCall where
  node : Option ℕ
  /-- `version` of the request -/
  sent : ℕ
  /-- the owner's operations up to the request -/
  start : ℕ
  answer : Option AreaAnswer := none
  /-- the loop of `tasvir_rpc_wait` ends with `done` -/
  returned : Bool := false

/-- `clock` counts the operations of the owner, `past` keeps the RW copy after each
of them, `wrote` tells the last write to a cell and `logged` the last one that the
owner has logged, before or after it, ahead of the next sync. -/
structure CallerState where
  owner : OwnerNode
  published : ℕ → Mem
  delivered : ℕ → ℕ
  nodes : ℕ → Receiver
  calls : ℕ → Option AreaCall
  clock : ℕ
  past : ℕ → Mem
  wrote : ℕ → ℕ
  logged : ℕ → ℕ

inductive CallerAct
  /-- the owner writes or logs, inside an RPC function or not -/
  | op (o : OwnerOp)
  | internal (evs : List SyncEvent) (timeUs : ℕ)
  | external (e : ExtCall)
  | rotate (timeUs : ℕ)
  /-- node `n` gets the descriptor -/
  | learn (n : ℕ)
  | boot (n : ℕ)
  /-- the next memory message arrives at node `n` -/
  | deliver (n : ℕ) (late : Bool)
  | sync (n : ℕ) (evs : List SyncEvent)
  | request (i : ℕ) (node : Option ℕ)
  | respond (i : ℕ)
  /-- the caller looks at the response in the loop of `tasvir_rpc_wait` -/
  | poll (i : ℕ)

/-- The cells an operation writes. -/
def OwnerOp.Writes (d : AreaDesc) : OwnerOp → ℕ → Prop
  | .write o bytes, x => d.h+o ≤ x ∧ x < d.h+o+bytes.length
  | .log _, _ => False

instance (d : AreaDesc) (o : OwnerOp) (x : ℕ) : Decidable (o.Writes d x) :=
  match o with
  | .write _ _ => inferInstanceAs (Decidable (_ ∧ _))
  | .log _ => inferInstanceAs (Decidable False)

namespace CallerState

/-- The RO copy on the node of a caller. -/
def view (s : CallerState) : Option ℕ → Mem
  | none => s.owner.mem.ro
  | some n => (s.nodes n).mem.ro

/-- `d->h ? d->h->version : 0`. -/
def viewVersion (d : AreaDesc) (s : CallerState) : Option ℕ → ℕ
  | none => s.owner.mem.ro (d.h+offVersion)
  | some n => if (s.nodes n).hasHeader then (s.nodes n).mem.ro (d.h+offVersion) else 0

/-- A caller is not booting and has the descriptor. -/
def ready (s : CallerState) : Option ℕ → Prop
  | none => True
  | some n => (s.nodes n).hasHeader = true ∧ (s.nodes n).booting = false

def pre (d : AreaDesc) (s : CallerState) : CallerAct → Prop
  | .op o => o.Valid d
  | .internal evs _ => Completes d evs
  | .external e => e.d = d ∧ (d.isRoot = true → (s.owner.mem.lists 0).l.length < syncListLen)
  | .learn n => (s.nodes n).hasHeader = false
  | .sync n evs => (s.nodes n).booting = false ∧ Completes d evs
  | .request i node => s.calls i = none ∧ s.ready node
  | _ => True

/-- One operation of the owner. A write to a line whose bit is set counts as
logged, and a log covers all writes to its lines so far. -/
def perform (d : AreaDesc) (s : CallerState) (o : OwnerOp) : CallerState :=
  let mem := s.owner.mem.op d o
  { s with
    owner := { s.owner with mem }
    clock := s.clock+1
    past := Function.update s.past (s.clock+1) mem.rw
    wrote := fun x => if o.Writes d x then s.clock+1 else s.wrote x
    logged := fun x =>
      if lineBit mem.log (x/64) then if o.Writes d x then s.clock+1 else s.wrote x
      else s.logged x }

def next (d : AreaDesc) (s : CallerState) : CallerAct → CallerState
  | .op o => s.perform d o
  | .internal evs timeUs => { s with
      owner := s.owner.internal d evs timeUs
      published := s.owner.record d evs timeUs s.published }
  | .external e => { s with owner := s.owner.external e }
  | .rotate timeUs => { s with owner := s.owner.rotate d timeUs }
  | .learn n =>
    { s with nodes := Function.update s.nodes n { s.nodes n with hasHeader := true } }
  | .boot n => { s with nodes := Function.update s.nodes n { s.nodes n with booting := false } }
  | .deliver n late => match s.owner.tx.ring[s.delivered n]? with
    | some m => { s with
        delivered := Function.update s.delivered n (s.delivered n+1)
        nodes := Function.update s.nodes n ((s.nodes n).handleMsgMem late false m) }
    | none => s
  | .sync n evs =>
    { s with nodes := Function.update s.nodes n ((s.nodes n).internalSync d evs) }
  | .request i node =>
    { s with
      calls := Function.update s.calls i
        (some { node, sent := s.viewVersion d node, start := s.clock }) }
  | .respond i => match s.calls i with
    | some c =>
      -- the owner aborts over a request of its own version
      if c.answer.isSome ∨ c.sent = s.owner.mem.rw (d.h+offVersion) then s
      else
        { s with
          calls := Function.update s.calls i
            (some { c with answer := some ⟨s.owner.mem.rw (d.h+offVersion), s.logged⟩ }) }
    | none => s
  | .poll i => match s.calls i with
    | some c => match c.answer with
      | some a =>
        if a.version ≤ s.viewVersion d c.node then
          { s with calls := Function.update s.calls i (some { c with returned := true }) }
        else s
      | none => s
    | none => s

/-- A new area, and nodes that have nothing of it. -/
structure Fresh (d : AreaDesc) (s : CallerState) : Prop where
  lists : ∀ t, (s.owner.mem.lists t).l = [] ∧ (s.owner.mem.lists t).changed = 0
  versions : s.owner.mem.ro (d.h+offVersion) = 0 ∧ s.owner.mem.rw (d.h+offVersion) = 1 ∧
    (s.owner.info 0).versionEnd = 0
  diff : ∀ l < d.offsetLogEnd/64, lineBit (s.owner.mem.diff 0) l = false
  published : ∀ x, d.Tracked x → s.published 0 x = s.owner.mem.ro x
  ring : s.owner.tx.ring = [] ∧ ∀ n, s.delivered n = 0
  nodes : ∀ n, (RemoteNode.mk (s.nodes n) 0).Fresh d ∧ (s.nodes n).lastSyncExtV = 0 ∧
    (s.nodes n).mem.rw (d.h+offVersion) = 0
  calls : ∀ i, s.calls i = none
  ghosts : s.clock = 0 ∧ s.past 0 = s.owner.mem.rw ∧ ∀ x, s.wrote x = 0 ∧ s.logged x = 0

end CallerState

/-- Memory messages arrive in order and without loss, and the queue for deferred
ones has room. -/
def callerSystem (d : AreaDesc) : System CallerState CallerAct where
  init := CallerState.Fresh d
  pre := CallerState.pre d
  next := CallerState.next d

/-- The lines that a caller on node `n` relies on from version `w` on: the version
itself, and what was logged between request and response. -/
def AreaCall.need (d : AreaDesc) (c : AreaCall) (n w : ℕ) : Set ℕ :=
  {l | ∃ a, c.node = some n ∧ c.answer = some a ∧ a.version ≤ w ∧
    (l = (d.h+offVersion)/64 ∨ ∃ x, d.Payload x ∧ c.start < a.logged x ∧ x/64 = l)}

def CallerState.need (d : AreaDesc) (s : CallerState) (n w : ℕ) : Set ℕ :=
  {l | ∃ i c, s.calls i = some c ∧ l ∈ c.need d n w}

/-- Cell `x` of the copy `m` has a value that the owner's RW copy had after write `i`. -/
def CallerState.Since (s : CallerState) (x i : ℕ) (m : Mem) : Prop :=
  ∃ k, i ≤ k ∧ k ≤ s.clock ∧ m x = s.past k x

/-- The owner's operations, and what the published copies have of them. -/
structure TraceInv (d : AreaDesc) (s : CallerState) : Prop where
  wrote_le : ∀ x, s.wrote x ≤ s.clock
  logged_le : ∀ x, s.logged x ≤ s.wrote x
  past : ∀ x, d.Payload x → ∀ k, s.wrote x ≤ k → k ≤ s.clock → s.past k x = s.owner.mem.rw x
  /-- what is no longer in the log is in the RO copy -/
  synced : ∀ x, d.Payload x → 0 < s.logged x → lineBit s.owner.mem.log (x/64) = false →
    s.Since x (s.logged x) s.owner.mem.ro

/-- A call: what is promised of the published versions, and of its own node. -/
structure CallInv (d : AreaDesc) (s : CallerState) (c : AreaCall) : Prop where
  start_le : c.start ≤ s.clock
  ready : s.ready c.node
  logged : ∀ a, c.answer = some a → ∀ x, a.logged x ≤ s.logged x
  version : ∀ a, c.answer = some a → a.version ≤ s.owner.mem.rw (d.h+offVersion)
  published : ∀ a, c.answer = some a → ∀ w, a.version ≤ w → w ≤ s.owner.mem.ro (d.h+offVersion) →
    ∀ x, d.Payload x → c.start < a.logged x → s.Since x (a.logged x) (s.published w)
  returned : c.returned = true → ∃ a, c.answer = some a ∧ a.version ≤ s.viewVersion d c.node

/-- What was logged for a call has been sent, or waits in diff log 0, or in the log
until the next version is published. -/
def CallerState.Owed (d : AreaDesc) (s : CallerState) (lines : Set ℕ) (c : AreaCall) : Prop :=
  ∀ x, d.Payload x → c.start < (c.answer.elim s.logged AreaAnswer.logged) x →
    x/64 ∈ lines ∨ lineBit (s.owner.mem.diff 0) (x/64-d.h/64) = true ∨
    (lineBit s.owner.mem.log (x/64) = true ∧
      ∀ a, c.answer = some a → s.owner.mem.ro (d.h+offVersion) < a.version)

/-- A node with the messages on their way to it. -/
structure NodeInv (d : AreaDesc) (s : CallerState) (img : Mem) (v n : ℕ) (lines : Set ℕ) : Prop where
  delivered : s.delivered n ≤ s.owner.tx.ring.length
  feed : FeedInv d s.published (s.need d n) lines img v (s.nodes n)
    (s.owner.tx.ring.drop (s.delivered n))
  owed : ∀ i c, s.calls i = some c → c.node = some n → s.Owed d lines c

structure CallerInv (d : AreaDesc) (s : CallerState) : Prop where
  trace : TraceInv d s
  call : ∀ i c, s.calls i = some c → CallInv d s c
  sender : ∃ img v, SenderInv d s.owner s.published img v ∧ img (d.h+offVersion) = v ∧
    (v = s.owner.mem.ro (d.h+offVersion) →
      ∀ l < d.offsetLogEnd/64, lineBit (s.owner.mem.diff 0) l = false) ∧
    ∀ n, ∃ lines, NodeInv d s img v n lines

section
variable {d : AreaDesc} {s : CallerState}

theorem CallerState.Since.mono {x i : ℕ} {m : Mem} (h : s.Since x i m) {s' : CallerState}
    (hc : s.clock ≤ s'.clock) (hp : ∀ k ≤ s.clock, s'.past k = s.past k) : s'.Since x i m := by
  obtain ⟨k, h1, h2, h3⟩ := h
  refine ⟨k, h1, h2.trans hc, ?_⟩
  rw [hp k h2]
  exact h3

theorem AreaCall.need_header {c : AreaCall} {n w w' : ℕ} (hw : w ≤ w')
    (h : (c.need d n w).Nonempty) : (d.h+offVersion)/64 ∈ c.need d n w' := by
  obtain ⟨l, a, h1, h2, h3, -⟩ := h
  exact ⟨a, h1, h2, h3.trans hw, Or.inl rfl⟩

theorem CallerState.need_header {n w w' : ℕ} (hw : w ≤ w') (h : (s.need d n w).Nonempty) :
    (d.h+offVersion)/64 ∈ s.need d n w' := by
  obtain ⟨l, i, c, hc, hl⟩ := h
  exact ⟨i, c, hc, AreaCall.need_header hw ⟨l, hl⟩⟩

/-- A change to one call that leaves what it relies on. -/
theorem CallerState.need_update {n w i : ℕ} {c' : AreaCall}
    (hc : ∀ c, s.calls i = some c → c'.need d n w = c.need d n w)
    (hnone : s.calls i = none → c'.need d n w = ∅) :
    CallerState.need d { s with calls := Function.update s.calls i (some c') } n w =
      s.need d n w := by
  ext l
  constructor
  · rintro ⟨j, c, hj, hl⟩
    by_cases hij : j = i
    · subst hij
      simp only [Function.update_self, Option.some.injEq] at hj
      subst hj
      cases hold : s.calls j with
      | none =>
        rw [hnone hold] at hl
        exact absurd hl (Set.notMem_empty _)
      | some c =>
        rw [hc c hold] at hl
        exact ⟨j, c, hold, hl⟩
    · simp only [Function.update_of_ne hij] at hj
      exact ⟨j, c, hj, hl⟩
  · rintro ⟨j, c, hj, hl⟩
    by_cases hij : j = i
    · subst hij
      rw [← hc c hj] at hl
      exact ⟨j, c', Function.update_self .., hl⟩
    · refine ⟨j, c, ?_, hl⟩
      simp only [Function.update_of_ne hij]
      exact hj

/-- Bits are only set by an operation. -/
theorem lineBit_op (hd : d.Wf) {o : OwnerOp} (ho : o.Valid d) (m : NodeMem) {l : ℕ}
    (h : lineBit m.log l = true) : lineBit (m.op d o).log l = true := by
  cases o with
  | write p bytes => exact h
  | log r =>
    have hbit := lineBit_logRange hd m r ho l
    rw [h, Bool.true_or] at hbit
    exact hbit

/-- An operation changes the cells it writes. -/
theorem rw_op (m : NodeMem) (o : OwnerOp) {x : ℕ} (h : ¬o.Writes d x) :
    (m.op d o).rw x = m.rw x := by
  cases o with
  | write p bytes => exact if_neg h
  | log r => exact congrFun (m.logRange_frame d r).2.1 x

theorem perform_wrote (d : AreaDesc) (s : CallerState) (o : OwnerOp) (x : ℕ) :
    (s.perform d o).wrote x = if o.Writes d x then s.clock+1 else s.wrote x := rfl

theorem perform_logged (d : AreaDesc) (s : CallerState) (o : OwnerOp) (x : ℕ) :
    (s.perform d o).logged x =
      if lineBit (s.owner.mem.op d o).log (x/64) then
        if o.Writes d x then s.clock+1 else s.wrote x
      else s.logged x := rfl

theorem TraceInv.perform (hd : d.Wf) (h : TraceInv d s) {o : OwnerOp} (ho : o.Valid d) :
    TraceInv d (s.perform d o) ∧ ∀ x, s.logged x ≤ (s.perform d o).logged x := by
  obtain ⟨hro, -⟩ := ops_frame (d := d) [o] s.owner.mem
  have hro' : (s.owner.mem.op d o).ro = s.owner.mem.ro := hro
  refine ⟨⟨?_, ?_, ?_, ?_⟩, ?_⟩
  · intro x
    have hle := h.wrote_le x
    simp only [CallerState.perform]
    split_ifs
    · exact le_rfl
    · omega
  · intro x
    have hle := h.logged_le x
    have hle' := h.wrote_le x
    simp only [CallerState.perform]
    split_ifs <;> omega
  · -- the RW copy of a cell stays as it was since the last write to it
    intro x hx k hk hk'
    simp only [CallerState.perform] at hk hk' ⊢
    by_cases heq : k = s.clock+1
    · rw [heq, Function.update_self]
    · have hw : ¬o.Writes d x := by
        intro hw
        rw [if_pos hw] at hk
        omega
      rw [if_neg hw] at hk
      rw [Function.update_of_ne heq, rw_op _ _ hw]
      exact h.past x hx k hk (by omega)
  · -- the operation did not set the bit, so it logged no write to this cell
    intro x hx h0 hb
    have hb' : lineBit s.owner.mem.log (x/64) = false := by
      rw [← Bool.not_eq_true]
      intro hf
      rw [← Bool.not_eq_true] at hb
      exact hb (lineBit_op hd ho s.owner.mem hf)
    have hlogged : (s.perform d o).logged x = s.logged x := by
      simp only [CallerState.perform] at hb ⊢
      rw [hb, if_neg Bool.false_ne_true]
    rw [hlogged] at h0 ⊢
    have hsince := h.synced x hx h0 hb'
    have hmem : (s.perform d o).owner.mem.ro = s.owner.mem.ro := hro'
    rw [hmem]
    apply hsince.mono (Nat.le_succ _)
    intro k hk
    exact Function.update_of_ne (by omega) _ _
  · intro x
    have hle := h.logged_le x
    have hle' := h.wrote_le x
    simp only [CallerState.perform]
    split_ifs <;> omega

/-- An operation of the owner. -/
theorem CallerInv.perform (hd : d.Wf) (h : CallerInv d s) {o : OwnerOp} (ho : o.Valid d) :
    CallerInv d (s.perform d o) := by
  obtain ⟨img, v, hsend, hver, hidle, hnodes⟩ := h.sender
  obtain ⟨htrace, hmono⟩ := h.trace.perform hd ho
  obtain ⟨hro, hdiff, -⟩ := ops_frame (d := d) [o] s.owner.mem
  have hro' : (s.perform d o).owner.mem.ro = s.owner.mem.ro := hro
  have hdiff' : (s.perform d o).owner.mem.diff = s.owner.mem.diff := hdiff
  have hvalid : ∀ op ∈ [o], op.Valid d := by
    intro op hop
    rw [List.mem_singleton.mp hop]
    exact ho
  have hrw : (s.perform d o).owner.mem.rw (d.h+offVersion) = s.owner.mem.rw (d.h+offVersion) :=
    ops_header [o] hvalid s.owner.mem offVersion (by norm_num [offVersion, sizeofHeader])
  have hpast : ∀ k ≤ s.clock, (s.perform d o).past k = s.past k := by
    intro k hk
    exact Function.update_of_ne (by omega) _ _
  have hview : ∀ node, (s.perform d o).viewVersion d node = s.viewVersion d node := by
    intro node
    cases node with
    | none => exact congrFun hro' _
    | some n => rfl
  refine ⟨htrace, ?_, img, v, hsend.update [o] hvalid, hver, ?_, ?_⟩
  · intro i c hc
    have hcall := h.call i c hc
    refine ⟨Nat.le_succ_of_le hcall.start_le, hcall.ready, ?_, ?_, ?_, ?_⟩
    · intro a ha x
      exact (hcall.logged a ha x).trans (hmono x)
    · intro a ha
      rw [hrw]
      exact hcall.version a ha
    · intro a ha w hw hw' x hx hlt
      rw [hro'] at hw'
      exact (hcall.published a ha w hw hw' x hx hlt).mono (Nat.le_succ _) hpast
    · intro hr
      rw [hview]
      exact hcall.returned hr
  · rw [hro', hdiff']
    exact hidle
  · intro n
    obtain ⟨lines, hnode⟩ := hnodes n
    refine ⟨lines, hnode.delivered, hnode.feed, ?_⟩
    intro i c hc hn x hx hlt
    have howed := hnode.owed i c hc hn x hx
    rw [hdiff', hro']
    by_cases hb : c.answer = none ∧ lineBit (s.owner.mem.op d o).log (x/64) = true
    · -- the operation may have logged `x` for a call without a response
      refine Or.inr (Or.inr ⟨hb.2, ?_⟩)
      intro a ha
      rw [hb.1] at ha
      exact absurd ha (by simp)
    · have hsame : (c.answer.elim (s.perform d o).logged AreaAnswer.logged) x =
          (c.answer.elim s.logged AreaAnswer.logged) x := by
        cases ha : c.answer with
        | none =>
          simp only [Option.elim_none, CallerState.perform]
          rw [if_neg (fun hf => hb ⟨ha, hf⟩)]
        | some a => rfl
      rw [hsame] at hlt
      rcases howed hlt with hl | hl | ⟨hl, hv⟩
      · exact Or.inl hl
      · exact Or.inr (Or.inl hl)
      · exact Or.inr (Or.inr ⟨lineBit_op hd ho s.owner.mem hl, hv⟩)

variable (hd : d.Wf) (hpos : 0 < d.offsetLogEnd) (hend : d.offsetLogEnd < 2^31)
include hd hpos hend

/-- A completed sync on the owner's node. -/
theorem CallerInv.internal (h : CallerInv d s) (evs : List SyncEvent) (hev : Completes d evs)
    (timeUs : ℕ) : CallerInv d (s.next d (.internal evs timeUs)) := by
  obtain ⟨img, v, hsend, hver, hidle, hnodes⟩ := h.sender
  obtain ⟨hsend', hrec⟩ := hsend.internal hd hpos (by omega) (fun _ => by omega) evs hev timeUs
  obtain ⟨hcell, hlog, hdiff⟩ := hsend.internal_effect hd (by omega) evs hev timeUs
  have hnow := hsend.internal_version hd hpos (by omega) (fun _ => by omega) evs hev timeUs
  have htx := s.owner.internal_tx d evs timeUs
  have hlast := hsend.last
  have hnext := hsend.next
  have hnext' := hsend'.next
  have hle : s.owner.mem.ro (d.h+offVersion) ≤
      (s.owner.internal d evs timeUs).mem.ro (d.h+offVersion) := by
    rw [hnow]
    split_ifs <;> omega
  -- after the sync the RO copy has every logged write
  have hsynced : ∀ x, d.Payload x → 0 < s.logged x →
      s.Since x (s.logged x) (s.owner.internal d evs timeUs).mem.ro := by
    intro x hx h0
    obtain ⟨-, hro⟩ := hcell x hx
    cases hb : lineBit s.owner.mem.log (x/64)
    · rw [hb, if_neg Bool.false_ne_true] at hro
      obtain ⟨k, h1, h2, h3⟩ := h.trace.synced x hx h0 hb
      exact ⟨k, h1, h2, hro.trans h3⟩
    · rw [hb, if_pos rfl] at hro
      refine ⟨s.clock, (h.trace.logged_le x).trans (h.trace.wrote_le x), le_rfl, ?_⟩
      rw [hro, h.trace.past x hx s.clock (h.trace.wrote_le x) le_rfl]
  refine ⟨⟨h.trace.wrote_le, h.trace.logged_le, ?_, fun x hx h0 _ => hsynced x hx h0⟩, ?_, img, v,
    hsend', hver, ?_, ?_⟩
  · intro x hx k hk hk'
    simp only [CallerState.next]
    rw [(hcell x hx).1]
    exact h.trace.past x hx k hk hk'
  · intro i c hc
    have hcall := h.call i c hc
    refine ⟨hcall.start_le, hcall.ready, hcall.logged, ?_, ?_, ?_⟩
    · intro a ha
      have hv := hcall.version a ha
      simp only [CallerState.next]
      omega
    · intro a ha w hw hw' x hx hlt
      simp only [CallerState.next] at hw' ⊢
      by_cases hold : w ≤ s.owner.mem.ro (d.h+offVersion)
      · rw [hrec w hold]
        exact hcall.published a ha w hw hold x hx hlt
      · -- the version that this sync publishes
        cases hch : hasChanges (syncUpdated d true s.owner.mem evs)
        · rw [hnow, hch, if_neg Bool.false_ne_true] at hw'
          exact absurd hw' hold
        · rw [hnow, hch, if_pos rfl] at hw'
          have heq : w = s.owner.mem.rw (d.h+offVersion) := by omega
          obtain ⟨k, h1, h2, h3⟩ := hsynced x hx (by have := hcall.logged a ha x; omega)
          refine ⟨k, (hcall.logged a ha x).trans h1, h2, ?_⟩
          rw [OwnerNode.record, hch, if_pos rfl, heq, Function.update_self]
          exact h3
    · intro hr
      obtain ⟨a, ha, hv⟩ := hcall.returned hr
      refine ⟨a, ha, hv.trans ?_⟩
      cases hn : c.node with
      | none => exact hle
      | some n => exact le_rfl
  · simp only [CallerState.next]
    intro hv l hl
    have hch : hasChanges (syncUpdated d true s.owner.mem evs) = false := by
      rw [← Bool.not_eq_true]
      intro hch
      rw [hnow, hch, if_pos rfl] at hv
      omega
    have hclear := hsend.unlogged hd (by omega) (fun _ => by omega) evs hev hch
    rw [hnow, hch, if_neg Bool.false_ne_true] at hv
    rw [hdiff l hl, hch, hidle hv l hl, hclear _ ⟨by omega, by omega⟩]
    rfl
  · intro n
    obtain ⟨lines, hnode⟩ := hnodes n
    refine ⟨lines, ?_, ?_, ?_⟩
    · simp only [CallerState.next, htx]
      exact hnode.delivered
    · simp only [CallerState.next, htx]
      apply hnode.feed.record
      · intro w hw
        exact ⟨hrec w (hw.trans hlast), rfl⟩
      · exact hnode.feed.away
      · exact hnode.feed.header
    · intro i c hc hn x hx hlt
      obtain ⟨h1, h2⟩ := hx.has hd
      simp only [CallerState.next]
      rw [hdiff _ (by omega), show d.h/64+(x/64-d.h/64) = x/64 from by omega]
      rcases hnode.owed i c hc hn x hx hlt with hl | hl | ⟨hl, -⟩
      · exact Or.inl hl
      · rw [hl]
        exact Or.inr (Or.inl rfl)
      · rw [hl, Bool.or_true]
        exact Or.inr (Or.inl rfl)

/-- An external sync sends all that waits in diff log 0. -/
theorem CallerInv.external (h : CallerInv d s) (e : ExtCall) (he : e.d = d)
    (hfree : d.isRoot = true → (s.owner.mem.lists 0).l.length < syncListLen) :
    CallerInv d (s.next d (.external e)) := by
  obtain ⟨img, v, hsend, hver, hidle, hnodes⟩ := h.sender
  obtain ⟨⟨hro, hrw, -⟩, -⟩ := external_frame e (by rw [he]; exact hd.end_aligned) s.owner.ctx
    s.owner.logs
  have hro' : (s.owner.external e).mem.ro = s.owner.mem.ro := hro
  have hrw' : (s.owner.external e).mem.rw = s.owner.mem.rw := hrw
  have hlog : (s.owner.external e).mem.log = s.owner.mem.log := rfl
  have htrace : TraceInv d (s.next d (.external e)) := by
    refine ⟨h.trace.wrote_le, h.trace.logged_le, ?_, ?_⟩
    · simp only [CallerState.next, hrw']
      exact h.trace.past
    · simp only [CallerState.next, hlog, hro']
      exact h.trace.synced
  have hcalls : ∀ i c, s.calls i = some c → CallInv d (s.next d (.external e)) c := by
    intro i c hc
    have hcall := h.call i c hc
    refine ⟨hcall.start_le, hcall.ready, hcall.logged, ?_, ?_, ?_⟩
    · simp only [CallerState.next, hrw']
      exact hcall.version
    · simp only [CallerState.next, hro']
      exact hcall.published
    · intro hr
      obtain ⟨a, ha, hv⟩ := hcall.returned hr
      refine ⟨a, ha, hv.trans (le_of_eq ?_)⟩
      cases hn : c.node with
      | none => exact (congrFun hro' _).symm
      | some n => rfl
  rcases hsend.external hd hpos (by omega) e he hfree with ⟨hring, hsend', hkeep⟩ |
    ⟨ms, hring, hf, hsend', hsent⟩
  · refine ⟨htrace, hcalls, img, v, hsend', hver, ?_, ?_⟩
    · simp only [CallerState.next, hro']
      intro hv l hl
      rw [hkeep l hl]
      exact hidle hv l hl
    · intro n
      obtain ⟨lines, hnode⟩ := hnodes n
      refine ⟨lines, ?_, ?_, ?_⟩
      · simp only [CallerState.next, hring]
        exact hnode.delivered
      · simp only [CallerState.next, hring]
        exact hnode.feed
      · intro i c hc hn x hx hlt
        obtain ⟨h1, h2⟩ := hx.has hd
        simp only [CallerState.next, hlog, hro']
        rw [hkeep _ (by omega)]
        exact hnode.owed i c hc hn x hx hlt
  · -- an emission: every line of diff log 0 is in it, if there is any
    refine ⟨htrace, hcalls, _, _, hsend', rfl, ?_, ?_⟩
    · intro _ l hl
      exact (hsent l hl).1
    · intro n
      obtain ⟨lines, hnode⟩ := hnodes n
      have hmove : ∀ x, d.Payload x →
          lineBit (s.owner.mem.diff 0) (x/64-d.h/64) = true →
          x/64 ∈ carried lines v (s.owner.mem.ro (d.h+offVersion)) ms := by
        intro x hx hb
        obtain ⟨h1, h2⟩ := hx.has hd
        refine Or.inr ⟨?_, ?_⟩
        · intro hv
          rw [hidle hv _ (by omega)] at hb
          exact Bool.noConfusion hb
        · have hcov := (hsent (x/64-d.h/64) (by omega)).2 hb
          rwa [show d.h/64+(x/64-d.h/64) = x/64 from by omega] at hcov
      have hneed : s.need d n (s.owner.mem.ro (d.h+offVersion)) ⊆
          carried lines v (s.owner.mem.ro (d.h+offVersion)) ms := by
        by_cases hv : v = s.owner.mem.ro (d.h+offVersion)
        · rw [← hv]
          exact fun l hl => Or.inl (hnode.feed.needs hl)
        · rintro l ⟨i, c, hc, a, hn, ha, hle, hl⟩
          rcases hl with rfl | ⟨x, hx, hlt, rfl⟩
          · refine Or.inr ⟨hv, hf.covers (d.h+offVersion) (Or.inr rfl) ?_⟩
            rw [hver]
            exact hv
          · rcases hnode.owed i c hc hn x hx (by rw [ha]; exact hlt) with hl | hl | ⟨-, hl⟩
            · exact Or.inl hl
            · exact hmove x hx hl
            · exact absurd (hl a ha) (by omega)
      refine ⟨carried lines v (s.owner.mem.ro (d.h+offVersion)) ms, ?_, ?_, ?_⟩
      · simp only [CallerState.next, hring, List.length_append]
        exact Nat.le_add_right_of_le hnode.delivered
      · simp only [CallerState.next, hring]
        rw [List.drop_append_of_le_length hnode.delivered]
        exact hnode.feed.extend hf hneed
      · intro i c hc hn x hx hlt
        simp only [CallerState.next, hlog, hro']
        rcases hnode.owed i c hc hn x hx hlt with hl | hl | hl
        · exact Or.inl (Or.inl hl)
        · exact Or.inl (hmove x hx hl)
        · exact Or.inr (Or.inr hl)

omit hd hpos hend in
theorem CallerInv.rotate (h : CallerInv d s) (timeUs : ℕ) :
    CallerInv d (s.next d (.rotate timeUs)) := by
  obtain ⟨img, v, hsend, hver, hidle, hnodes⟩ := h.sender
  obtain ⟨hdiff, -⟩ := rotateLogs_zero d timeUs s.owner.logs
  have hdiff' : (s.owner.rotate d timeUs).mem.diff 0 = s.owner.mem.diff 0 := hdiff
  refine ⟨⟨h.trace.wrote_le, h.trace.logged_le, h.trace.past, h.trace.synced⟩, ?_, img, v,
    hsend.rotate timeUs, hver, ?_, ?_⟩
  · intro i c hc
    have hcall := h.call i c hc
    refine ⟨hcall.start_le, hcall.ready, hcall.logged, hcall.version, hcall.published, ?_⟩
    intro hr
    obtain ⟨a, ha, hv⟩ := hcall.returned hr
    refine ⟨a, ha, hv.trans (le_of_eq ?_)⟩
    cases c.node <;> rfl
  · simp only [CallerState.next, hdiff']
    exact hidle
  · intro n
    obtain ⟨lines, hnode⟩ := hnodes n
    refine ⟨lines, hnode.delivered, hnode.feed, ?_⟩
    intro i c hc hn x hx hlt
    simp only [CallerState.next, hdiff']
    exact hnode.owed i c hc hn x hx hlt

omit hd hpos hend in
/-- A step of node `n` alone: what it has to keep. -/
theorem CallerInv.atNode (h : CallerInv d s) (n : ℕ) (r : Receiver) (k : ℕ)
    (hnode : ∀ img v lines, NodeInv d s img v n lines → k ≤ s.owner.tx.ring.length ∧ ∃ lines',
      FeedInv d s.published (s.need d n) lines' img v r (s.owner.tx.ring.drop k) ∧
      ∀ i c, s.calls i = some c → c.node = some n → s.Owed d lines' c)
    (hcall : ∀ i c, s.calls i = some c → c.node = some n →
      r.hasHeader = true ∧ r.booting = false ∧ ∀ a, c.answer = some a →
        a.version ≤ (s.nodes n).mem.ro (d.h+offVersion) → a.version ≤ r.mem.ro (d.h+offVersion)) :
    CallerInv d { s with
      nodes := Function.update s.nodes n r, delivered := Function.update s.delivered n k } := by
  obtain ⟨img, v, hsend, hver, hidle, hnodes⟩ := h.sender
  refine ⟨⟨h.trace.wrote_le, h.trace.logged_le, h.trace.past, h.trace.synced⟩, ?_, img, v, hsend,
    hver, hidle, ?_⟩
  · intro i c hc
    have hold := h.call i c hc
    -- the calls of the node see its new copy, those of the others what they saw
    by_cases hn : c.node = some n
    · obtain ⟨hh, hb, hle⟩ := hcall i c hc hn
      refine ⟨hold.start_le, ?_, hold.logged, hold.version, hold.published, ?_⟩
      · rw [hn]
        simp only [CallerState.ready, Function.update_self]
        exact ⟨hh, hb⟩
      · intro hr
        obtain ⟨a, ha, hv⟩ := hold.returned hr
        have hready := hold.ready
        rw [hn] at hready hv
        refine ⟨a, ha, ?_⟩
        rw [CallerState.viewVersion, if_pos hready.1] at hv
        rw [hn]
        simp only [CallerState.viewVersion, Function.update_self, hh, ↓reduceIte]
        exact hle a ha hv
    · have hsame : ∀ n', c.node = some n' → Function.update s.nodes n r n' = s.nodes n' := by
        intro n' hn'
        apply Function.update_of_ne
        intro heq
        rw [heq] at hn'
        exact hn hn'
      refine ⟨hold.start_le, ?_, hold.logged, hold.version, hold.published, ?_⟩
      · have hready := hold.ready
        cases hc' : c.node with
        | none => trivial
        | some n' =>
          rw [hc'] at hready
          simp only [CallerState.ready, hsame n' hc']
          exact hready
      · intro hr
        obtain ⟨a, ha, hv⟩ := hold.returned hr
        refine ⟨a, ha, hv.trans (le_of_eq ?_)⟩
        cases hc' : c.node with
        | none => rfl
        | some n' => simp only [CallerState.viewVersion, hsame n' hc']
  · intro n'
    obtain ⟨lines, hold⟩ := hnodes n'
    by_cases hn : n' = n
    · subst hn
      obtain ⟨hk, lines', hfeed, howed⟩ := hnode img v lines hold
      refine ⟨lines', ?_, ?_, howed⟩
      · simp only [Function.update_self]
        exact hk
      · simp only [Function.update_self]
        exact hfeed
    · refine ⟨lines, ?_, ?_, hold.owed⟩
      · simp only [Function.update_of_ne hn]
        exact hold.delivered
      · simp only [Function.update_of_ne hn]
        exact hold.feed

omit hd hpos hend in
/-- The descriptor arrives at a node from which nobody calls yet. -/
theorem CallerInv.learn (h : CallerInv d s) (n : ℕ) (hn : (s.nodes n).hasHeader = false) :
    CallerInv d (s.next d (.learn n)) := by
  have hnone : ∀ i c, s.calls i = some c → c.node ≠ some n := by
    intro i c hc heq
    have hready := (h.call i c hc).ready
    rw [heq] at hready
    rw [hready.1] at hn
    exact Bool.noConfusion hn
  have hstep := h.atNode n { s.nodes n with hasHeader := true } (s.delivered n) (by
    intro img v lines hnode
    obtain ⟨lines', hfeed⟩ := hnode.feed.learn hn
    exact ⟨hnode.delivered, lines', hfeed, fun i c hc heq => absurd heq (hnone i c hc)⟩)
    (fun i c hc heq => absurd heq (hnone i c hc))
  rwa [Function.update_eq_self] at hstep

omit hd hpos hend in
theorem CallerInv.boot (h : CallerInv d s) (n : ℕ) : CallerInv d (s.next d (.boot n)) := by
  have hstep := h.atNode n { s.nodes n with booting := false } (s.delivered n) (by
    intro img v lines hnode
    exact ⟨hnode.delivered, lines, hnode.feed.boot, hnode.owed⟩) (by
    intro i c hc hn
    have hready := (h.call i c hc).ready
    rw [hn] at hready
    exact ⟨hready.1, rfl, fun _ _ hv => hv⟩)
  rwa [Function.update_eq_self] at hstep

omit hd hpos hend in
theorem CallerInv.deliver (h : CallerInv d s) (n : ℕ) (late : Bool) :
    CallerInv d (s.next d (.deliver n late)) := by
  simp only [CallerState.next]
  cases hm : s.owner.tx.ring[s.delivered n]? with
  | none => exact h
  | some m =>
    obtain ⟨hlt, hget⟩ := List.getElem?_eq_some_iff.mp hm
    obtain ⟨hh, hb⟩ := handle_ready late false (s.nodes n) m
    apply h.atNode n ((s.nodes n).handleMsgMem late false m) (s.delivered n+1)
    · intro img v lines hnode
      have hfeed := hnode.feed
      rw [List.drop_eq_getElem_cons hlt, hget] at hfeed
      exact ⟨hlt, lines, hfeed.recv late m, hnode.owed⟩
    · intro i c hc hn
      have hready := (h.call i c hc).ready
      rw [hn] at hready
      refine ⟨hh.trans hready.1, hb.trans hready.2, fun a _ hv => ?_⟩
      rw [(handle_ro late false (s.nodes n) m hready.2).1]
      exact hv

theorem CallerInv.sync (h : CallerInv d s) (n : ℕ) (evs : List SyncEvent) (hev : Completes d evs) :
    CallerInv d (s.next d (.sync n evs)) := by
  have hsize : SmallChunks evs := hev.smallChunks (by omega)
  obtain ⟨hh, hb⟩ := internalSync_ready d evs (s.nodes n)
  have hstep := h.atNode n ((s.nodes n).internalSync d evs) (s.delivered n) (by
    intro img v lines hnode
    exact ⟨hnode.delivered, lines, hnode.feed.sync hd hpos evs hev hsize, hnode.owed⟩) (by
    intro i c hc hn
    have hready := (h.call i c hc).ready
    rw [hn] at hready
    refine ⟨hh.trans hready.1, hb.trans hready.2, fun a ha hv => ?_⟩
    obtain ⟨img, v, -, -, -, hnodes⟩ := h.sender
    obtain ⟨lines, hnode⟩ := hnodes n
    exact hnode.feed.sync_version hd hpos hready.2 evs hev hsize hv
      ⟨_, i, c, hc, a, hn, ha, le_rfl, Or.inl rfl⟩)
  rwa [Function.update_eq_self] at hstep

omit hd hpos hend in
/-- A step of one call alone, which leaves what is relied on of the versions so far. -/
theorem CallerInv.setCall (h : CallerInv d s) (i : ℕ) (c' : AreaCall) (hcall : CallInv d s c')
    (hneed : ∀ n, ∀ w ≤ s.owner.mem.ro (d.h+offVersion),
      (∀ c, s.calls i = some c → c'.need d n w = c.need d n w) ∧
      (s.calls i = none → c'.need d n w = ∅))
    (howed : ∀ n, c'.node = some n → ∀ img v lines, NodeInv d s img v n lines → s.Owed d lines c') :
    CallerInv d { s with calls := Function.update s.calls i (some c') } := by
  obtain ⟨img, v, hsend, hver, hidle, hnodes⟩ := h.sender
  have hcalls : ∀ j c, Function.update s.calls i (some c') j = some c → CallInv d s c := by
    intro j c hj
    by_cases hij : j = i
    · rw [hij, Function.update_self, Option.some.injEq] at hj
      rw [← hj]
      exact hcall
    · rw [Function.update_of_ne hij] at hj
      exact h.call j c hj
  have hinv : ∀ j c, Function.update s.calls i (some c') j = some c →
      CallInv d { s with calls := Function.update s.calls i (some c') } c := by
    intro j c hj
    have hc := hcalls j c hj
    refine ⟨hc.start_le, ?_, hc.logged, hc.version, hc.published, ?_⟩
    · have hready := hc.ready
      cases hn : c.node with
      | none => trivial
      | some n =>
        rw [hn] at hready
        exact hready
    · intro hr
      obtain ⟨a, ha, hv⟩ := hc.returned hr
      refine ⟨a, ha, hv.trans (le_of_eq ?_)⟩
      cases c.node <;> rfl
  refine ⟨⟨h.trace.wrote_le, h.trace.logged_le, h.trace.past, h.trace.synced⟩, hinv, img, v, hsend,
    hver, hidle, ?_⟩
  intro n
  obtain ⟨lines, hnode⟩ := hnodes n
  refine ⟨lines, hnode.delivered, ?_, ?_⟩
  · apply hnode.feed.record
    · intro w hw
      obtain ⟨h1, h2⟩ := hneed n w (hw.trans hsend.last)
      exact ⟨rfl, CallerState.need_update h1 h2⟩
    · -- no call comes from a node that is not ready
      intro hn w
      apply Set.eq_empty_of_forall_notMem
      rintro l ⟨j, c, hj, a, hc, -⟩
      have hready := (hcalls j c hj).ready
      rw [hc] at hready
      rcases hn with hn | hn
      · rw [hready.1] at hn
        exact Bool.noConfusion hn
      · rw [hready.2] at hn
        exact Bool.noConfusion hn
    · intro w w' hw hne
      exact CallerState.need_header hw hne
  · intro j c hj hn
    by_cases hij : j = i
    · simp only [hij, Function.update_self, Option.some.injEq] at hj
      subst hj
      exact howed n hn img v lines hnode
    · simp only [Function.update_of_ne hij] at hj
      exact hnode.owed j c hj hn

omit hd hpos hend in
theorem CallerInv.request (h : CallerInv d s) (i : ℕ) (node : Option ℕ) (hi : s.calls i = none)
    (hr : s.ready node) : CallerInv d (s.next d (.request i node)) := by
  apply h.setCall
  · exact ⟨le_rfl, hr, fun a ha => absurd ha (by simp), fun a ha => absurd ha (by simp),
      fun a ha => absurd ha (by simp), fun hf => Bool.noConfusion hf⟩
  · intro n w _
    refine ⟨fun c hc => ?_, fun _ => ?_⟩
    · rw [hi] at hc
      exact absurd hc (by simp)
    · apply Set.eq_empty_of_forall_notMem
      rintro l ⟨a, -, ha, -⟩
      exact absurd ha (by simp)
  · -- nothing has been logged since the request
    intro n _ img v lines _ x _ hlt
    have hle := (h.trace.logged_le x).trans (h.trace.wrote_le x)
    simp only [Option.elim_none] at hlt
    omega

omit hd hpos hend in
theorem CallerInv.respond (h : CallerInv d s) (i : ℕ) : CallerInv d (s.next d (.respond i)) := by
  obtain ⟨img, v, hsend, -⟩ := h.sender
  have hnext := hsend.next
  simp only [CallerState.next]
  cases hc : s.calls i with
  | none => exact h
  | some c =>
    simp only
    split_ifs with hcond
    · exact h
    · have hcall := h.call i c hc
      have hnone : c.answer = none := by
        rw [← Option.not_isSome_iff_eq_none]
        exact fun hf => hcond (Or.inl hf)
      apply h.setCall
      · refine ⟨hcall.start_le, hcall.ready, ?_, ?_, ?_, ?_⟩
        · intro a ha x
          rw [← Option.some.inj ha]
        · intro a ha
          rw [← Option.some.inj ha]
        · intro a ha w hw hw'
          rw [← Option.some.inj ha] at hw
          simp only at hw
          omega
        · intro hr
          obtain ⟨a, ha, -⟩ := hcall.returned hr
          rw [hnone] at ha
          exact absurd ha (by simp)
      · -- the version of the response is not published yet
        intro n w hw
        refine ⟨fun c' hc' => ?_, fun hf => ?_⟩
        · rw [hc, Option.some.injEq] at hc'
          subst hc'
          ext l
          constructor
          · rintro ⟨a, -, ha, hle, -⟩
            rw [← Option.some.inj ha] at hle
            simp only at hle
            omega
          · rintro ⟨a, -, ha, -⟩
            rw [hnone] at ha
            exact absurd ha (by simp)
        · rw [hc] at hf
          exact absurd hf (by simp)
      · intro n hn img v lines hnode x hx hlt
        have howed := hnode.owed i c hc hn x hx (by rw [hnone]; exact hlt)
        rcases howed with hl | hl | ⟨hl, -⟩
        · exact Or.inl hl
        · exact Or.inr (Or.inl hl)
        · refine Or.inr (Or.inr ⟨hl, ?_⟩)
          intro a ha
          rw [← Option.some.inj ha]
          simp only
          omega

omit hd hpos hend in
theorem CallerInv.poll (h : CallerInv d s) (i : ℕ) : CallerInv d (s.next d (.poll i)) := by
  simp only [CallerState.next]
  cases hc : s.calls i with
  | none => exact h
  | some c =>
    cases ha : c.answer with
    | none =>
      simp only [ha]
      exact h
    | some a =>
      simp only [ha]
      split_ifs with hv
      · have hcall := h.call i c hc
        apply h.setCall
        · exact ⟨hcall.start_le, hcall.ready, fun a' ha' => hcall.logged a' (ha.trans ha'),
            fun a' ha' => hcall.version a' (ha.trans ha'),
            fun a' ha' => hcall.published a' (ha.trans ha'), fun _ => ⟨a, rfl, hv⟩⟩
        · intro n w _
          refine ⟨fun c' hc' => ?_, fun hf => ?_⟩
          · rw [hc, Option.some.injEq] at hc'
            subst hc'
            simp only [AreaCall.need, ha]
          · rw [hc] at hf
            exact absurd hf (by simp)
        · intro n hn img v lines hnode x hx hlt
          have howed := hnode.owed i c hc hn x hx
          rw [ha] at howed
          exact howed hlt
      · exact h

omit hend in
theorem callerInv_init (h : s.Fresh d) : CallerInv d s := by
  obtain ⟨hring, hzero⟩ := h.ring
  obtain ⟨hv, -⟩ := h.versions
  obtain ⟨hclock, hpast, hghost⟩ := h.ghosts
  have hnone : ∀ i c, s.calls i = some c → False := by
    intro i c hc
    rw [h.calls i] at hc
    exact absurd hc (by simp)
  -- no call, so nothing is owed to anybody
  have hneed : ∀ n w, s.need d n w = ∅ := by
    intro n w
    apply Set.eq_empty_of_forall_notMem
    rintro l ⟨i, c, hc, -⟩
    exact hnone i c hc
  refine ⟨⟨?_, ?_, ?_, ?_⟩, fun i c hc => absurd hc (hnone i c), s.owner.mem.ro, 0, ?_, hv,
    fun _ => h.diff, ?_⟩
  · intro x
    rw [(hghost x).1]
    exact Nat.zero_le _
  · intro x
    rw [(hghost x).2]
    exact Nat.zero_le _
  · intro x _ k _ hk
    rw [Nat.le_zero.mp (hk.trans (le_of_eq hclock)), hpast]
  · intro x _ h0
    rw [(hghost x).2] at h0
    exact absurd h0 (Nat.lt_irrefl 0)
  · exact SenderInv.fresh h.lists h.versions h.published
  · intro n
    obtain ⟨hfresh, hext, hrw⟩ := h.nodes n
    obtain ⟨-, hp, -, he⟩ := hfresh.flags
    have hsound := sound_reachable hd (.init hfresh)
    have hro : (s.nodes n).mem.ro (d.h+offVersion) = 0 :=
      (hfresh.copies _ (AreaDesc.Tracked.has hd hpos (Or.inr rfl))).trans hrw
    refine ⟨∅, ?_, ⟨hsound, fun _ => hfresh.ring, ?_, ?_, ?_, ?_, fun _ => hneed n, ?_⟩,
      fun i c hc => absurd hc (hnone i c)⟩
    · rw [hzero]
      exact Nat.zero_le _
    · intro hf
      rw [he] at hf
      exact Bool.noConfusion hf
    · refine ⟨∅, s.owner.mem.ro, 0, 0, [], [], ?_, ⟨?_, trivial, fun hne => absurd rfl hne, .nil _ _ _,
        fun hne => absurd rfl hne, ?_⟩, Or.inl ⟨hext, hp, fun _ => rfl⟩⟩
      · rw [hring, List.drop_nil, List.append_nil]
        exact hfresh.ring
      · exact fun m hm => absurd hm List.not_mem_nil
      · rw [hneed]
    · rw [hrw, hro]
      exact ⟨Nat.zero_le _, Nat.zero_le _⟩
    · intro x _ hl
      rw [hneed] at hl
      exact absurd hl (Set.notMem_empty _)
    · intro w w' _ hne
      rw [hneed] at hne
      exact absurd hne Set.not_nonempty_empty

/-- Step lemma. -/
theorem CallerInv.step (h : CallerInv d s) (a : CallerAct) (ha : s.pre d a) :
    CallerInv d (s.next d a) := by
  cases a with
  | op o => exact h.perform hd ha
  | internal evs timeUs => exact h.internal hd hpos hend evs ha timeUs
  | external e => exact h.external hd hpos hend e ha.1 ha.2
  | rotate timeUs => exact h.rotate timeUs
  | learn n => exact h.learn n ha
  | boot n => exact h.boot n
  | deliver n late => exact h.deliver n late
  | sync n evs => exact h.sync hd hpos hend n evs ha.2
  | request i node => exact h.request i node ha.1 ha.2
  | respond i => exact h.respond i
  | poll i => exact h.poll i

theorem callerInv_reachable (h : (callerSystem d).Reachable s) : CallerInv d s := by
  apply h.invariant
  · intro s hs
    exact callerInv_init hd hpos hs
  · intro s a hs ha
    exact hs.step hd hpos hend a ha

end

/-- Read your RPC's writes: when a caller has returned, the value of every cell that
was written and logged between its request and the response is, in its own view,
one that the owner's RW copy had after that write; it is what was written unless
the cell has been written again. -/
theorem rpc_reads_own_writes (d : AreaDesc) (hd : d.Wf) (hpos : 0 < d.offsetLogEnd)
    (hend : d.offsetLogEnd < 2^31) (s : CallerState) (h : (callerSystem d).Reachable s) (i : ℕ)
    (c : AreaCall) (hc : s.calls i = some c) (hr : c.returned = true) (a : AreaAnswer)
    (ha : c.answer = some a) (x : ℕ) (hx : d.Payload x) (hw : c.start < a.logged x) :
    (∃ k, a.logged x ≤ k ∧ k ≤ s.clock ∧ s.view c.node x = s.past k x) ∧
    (s.wrote x = a.logged x → s.view c.node x = s.owner.mem.rw x) := by
  have hinv := callerInv_reachable hd hpos hend h
  have hcall := hinv.call i c hc
  obtain ⟨img, v, hsend, -, -, hnodes⟩ := hinv.sender
  obtain ⟨a', ha', hv⟩ := hcall.returned hr
  rw [ha, Option.some.injEq] at ha'
  subst ha'
  have hview : ∃ k, a.logged x ≤ k ∧ k ≤ s.clock ∧ s.view c.node x = s.past k x := by
    cases hn : c.node with
    | none =>
      rw [hn, CallerState.viewVersion] at hv
      have hpub := hcall.published a ha _ hv le_rfl x hx hw
      rw [CallerState.Since, ← hsend.current x (Or.inl hx)] at hpub
      exact hpub
    | some n =>
      obtain ⟨lines, hnode⟩ := hnodes n
      have hready := hcall.ready
      rw [hn] at hready hv
      rw [CallerState.viewVersion, if_pos hready.1] at hv
      have hle := hnode.feed.version.2.trans (hnode.feed.le.trans hsend.last)
      have hpub := hcall.published a ha _ hv hle x hx hw
      rw [CallerState.Since, ← hnode.feed.view x (Or.inl hx)
        ⟨i, c, hc, a, hn, ha, hv, Or.inr ⟨x, hx, hw, rfl⟩⟩] at hpub
      exact hpub
  refine ⟨hview, fun hlast => ?_⟩
  obtain ⟨k, h1, h2, h3⟩ := hview
  rw [h3]
  exact hinv.trace.past x hx k (by rw [hlast]; exact h1) h2

/-- A new area without calls. -/
def newCalls : CallerState where
  owner := { dirtyNode 32768 with mem := emptyMem }
  published := fun _ _ => 0
  delivered := fun _ => 0
  nodes := fun _ => newReceiver.r
  calls := fun _ => none
  clock := 0
  past := fun _ => emptyMem.rw
  wrote := fun _ => 0
  logged := fun _ => 0

/-- The RPC function writes the first byte of the payload. -/
def firstWrite : OwnerOp := .write 1344 [7]

/-- The owner's memory when the response to the first call is built. -/
def answeredMem : NodeMem := (emptyMem.op (areaOf 32768) firstWrite).op (areaOf 32768) (.log (0, 32768))

theorem answeredMem_log (l : ℕ) (hl : (areaOf 32768).Has l) : lineBit answeredMem.log l = true := by
  have hd : (areaOf 32768).Wf := areaOf_wf ⟨1, rfl⟩ (by norm_num)
  have hvalid : (OwnerOp.log (0, 32768)).Valid (areaOf 32768) := ⟨by norm_num, by norm_num [areaOf]⟩
  obtain ⟨h1, h2⟩ := hl
  have hbit := lineBit_logRange hd (emptyMem.op (areaOf 32768) firstWrite) (0, 32768) hvalid l
  simp only [areaOf] at h1 h2
  rw [decide_eq_true ⟨by simp only [areaOf]; omega, by simp only [areaOf]; omega⟩, Bool.or_true] at hbit
  exact hbit

/-- A thread of the owner's node calls, the function writes and logs, a sync
publishes version 1, and the caller sees the byte. -/
theorem rpc_reads_first_write : ∃ (s : CallerState) (c : AreaCall) (a : AreaAnswer),
    (callerSystem (areaOf 32768)).Reachable s ∧ s.calls 0 = some c ∧ c.returned = true ∧
    c.answer = some a ∧ c.start < a.logged (32768+1344) ∧
    s.view c.node (32768+1344) = s.owner.mem.rw (32768+1344) := by
  have hd : (areaOf 32768).Wf := areaOf_wf ⟨1, rfl⟩ (by norm_num)
  have hpos : 0 < (areaOf 32768).offsetLogEnd := by norm_num [areaOf]
  have hend : (areaOf 32768).offsetLogEnd < 2^31 := by norm_num [areaOf]
  have hev : Completes (areaOf 32768) [.parse 0 0 32768, .process 0] :=
    completes_whole (areaOf 32768) hd hpos
  -- a node without calls, one request, and its handler's write and log call
  have hinit : (callerSystem (areaOf 32768)).Reachable newCalls := by
    refine .init ⟨fun _ => ⟨rfl, rfl⟩, ⟨rfl, rfl, rfl⟩, ?_, fun _ _ => rfl, ⟨rfl, fun _ => rfl⟩,
      fun _ => ⟨⟨⟨rfl, rfl, rfl, rfl⟩, rfl, fun _ _ => rfl, fun _ _ hit => absurd hit List.not_mem_nil⟩,
        rfl, rfl⟩, fun _ => rfl, rfl, rfl, fun _ => ⟨rfl, rfl⟩⟩
    intro l _
    exact BitVec.getMsbD_zero
  obtain ⟨s, hs⟩ : ∃ s, s = ((newCalls.next (areaOf 32768) (.request 0 none)).perform (areaOf 32768)
      firstWrite).perform (areaOf 32768) (.log (0, 32768)) := ⟨_, rfl⟩
  have hvalid : ∀ op ∈ [firstWrite, .log (0, 32768)], op.Valid (areaOf 32768) := by
    intro op hop
    simp only [List.mem_cons, List.not_mem_nil, or_false] at hop
    rcases hop with rfl | rfl
    · exact ⟨by norm_num [sizeofHeader], by norm_num, by norm_num [areaOf]⟩
    · exact ⟨by norm_num, by norm_num [areaOf]⟩
  have hreach : (callerSystem (areaOf 32768)).Reachable s := by
    rw [hs]
    exact hinit.run [.request 0 none, .op firstWrite, .op (.log (0, 32768))] ⟨⟨rfl, trivial⟩, hvalid firstWrite List.mem_cons_self,
      hvalid (.log (0, 32768)) (List.mem_cons_of_mem _ List.mem_cons_self), trivial⟩
  have hmem : s.owner.mem = answeredMem := by
    rw [hs]
    rfl
  have hcall : s.calls 0 = some { node := none, sent := 0, start := 0 } := by
    rw [hs]
    rfl
  have hversion : answeredMem.rw ((areaOf 32768).h+offVersion) = 1 :=
    ops_header [firstWrite, .log (0, 32768)] hvalid emptyMem offVersion
      (by norm_num [offVersion, sizeofHeader])
  have hin : firstWrite.Writes (areaOf 32768) (32768+1344) := by
    simp only [firstWrite, OwnerOp.Writes, areaOf, List.length_singleton]
    omega
  have hout : ¬(OwnerOp.log (0, 32768)).Writes (areaOf 32768) (32768+1344) := id
  have hwrote : s.wrote (32768+1344) = 1 := by
    rw [hs]
    rw [perform_wrote, if_neg hout, perform_wrote, if_pos hin]
    rfl
  have hlogged : s.logged (32768+1344) = 1 := by
    have hbit := answeredMem_log ((32768+1344)/64) (by
      refine ⟨?_, ?_⟩ <;> norm_num [areaOf])
    rw [hs]
    rw [perform_logged]
    refine (if_pos hbit).trans ?_
    rw [if_neg hout, perform_wrote, if_pos hin]
    rfl
  have hchanges := full_hasChanges 32768 ⟨1, rfl⟩ (by norm_num) (by norm_num) (by decide) answeredMem
    rfl rfl answeredMem_log
  have hcond : ¬((none : Option AreaAnswer).isSome = true ∨
      0 = answeredMem.rw ((areaOf 32768).h+offVersion)) := by
    rw [hversion]
    decide
  -- the answer, the sync that publishes it, and the caller's poll
  have hanswered := hreach.step (a := CallerAct.respond 0) trivial
  simp only [callerSystem, CallerState.next, hcall, hmem] at hanswered
  rw [if_neg hcond] at hanswered
  obtain ⟨img, v, hsend, -⟩ := (callerInv_reachable hd hpos hend hanswered).sender
  have hpub := hsend.internal_version hd hpos (by norm_num [areaOf]) (by norm_num [areaOf]) _ hev 5
  simp only [hmem, hchanges, ↓reduceIte] at hpub
  have hsynced := hanswered.step (a := CallerAct.internal [.parse 0 0 32768, .process 0] 5) hev
  simp only [CallerState.next] at hsynced
  have hdone := hsynced.step (a := CallerAct.poll 0) trivial
  simp only [CallerState.next, Function.update_self, CallerState.viewVersion, hpub, le_refl,
    ↓reduceIte] at hdone
  have hstart : 0 < s.logged (32768+1344) := by
    rw [hlogged]
    exact Nat.one_pos
  obtain ⟨c, hc⟩ : ∃ c : AreaCall, c = ⟨none, 0, 0,
      some ⟨answeredMem.rw ((areaOf 32768).h+offVersion), s.logged⟩, true⟩ := ⟨_, rfl⟩
  rw [← hc] at hdone
  have hans : c.answer = some ⟨answeredMem.rw ((areaOf 32768).h+offVersion), s.logged⟩ := by rw [hc]
  have hlt : c.start < s.logged (32768+1344) := by
    rw [hc]
    exact hstart
  have hret : c.returned = true := by rw [hc]
  have hview (t : CallerState) (ht : (callerSystem (areaOf 32768)).Reachable t)
      (hget : t.calls 0 = some c) (hw : t.wrote = s.wrote) :
      t.view c.node (32768+1344) = t.owner.mem.rw (32768+1344) := by
    obtain ⟨-, hsame⟩ := rpc_reads_own_writes (areaOf 32768) hd hpos hend t ht 0 c hget hret _ hans
      (32768+1344) ⟨by norm_num [areaOf, sizeofHeader], by norm_num [areaOf]⟩ hlt
    apply hsame
    rw [hw]
    exact hwrote.trans hlogged.symm
  have hseen := hview _ hdone (by simp only [Function.update_self]) rfl
  exact ⟨_, c, _, hdone, by simp only [Function.update_self], hret, hans, hlt, hseen⟩

end Tasvir
