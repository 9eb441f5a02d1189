import Mathlib.Tactic
import Tasvir.LongRun
import Tasvir.Sender

/-! End-to-end replication: an owner, a network that loses and reorders nothing,
and a receiver. -/
namespace Tasvir
open RunLength Machine

/-- A sequence of messages made of whole emissions, each following the one
before, from the copy `img` at version `v` on. -/
inductive Flow (d : AreaDesc) (pub : ℕ → Mem) : Mem → ℕ → List MemMsg → Mem → ℕ → Prop
  | nil (img : Mem) (v : ℕ) : Flow d pub img v [] img v
  | cons {img img' img'' : Mem} {v v' v'' : ℕ} {ms q : List MemMsg} :
    Follows d pub img v img' v' ms → Flow d pub img' v' q img'' v'' →
    Flow d pub img v (ms ++ q) img'' v''

section
variable {d : AreaDesc} {pub pub' : ℕ → Mem} {img img' : Mem} {v v' : ℕ} {q : List MemMsg}

theorem Flow.le (h : Flow d pub img v q img' v') : v ≤ v' := by
  induction h with
  | nil => exact le_rfl
  | cons hf _ ih => exact hf.le.trans ih

theorem Flow.snoc (h : Flow d pub img v q img' v') {img'' : Mem} {v'' : ℕ} {ms : List MemMsg}
    (hf : Follows d pub img' v' img'' v'' ms) : Flow d pub img v (q ++ ms) img'' v'' := by
  induction h with
  | nil =>
    have hflow := Flow.cons hf (.nil _ _)
    rwa [List.append_nil] at hflow
  | cons hg _ ih =>
    rw [List.append_assoc]
    exact .cons hg (ih hf)

/-- Later versions do not touch the flow. -/
theorem Flow.record (h : Flow d pub img v q img' v') (hp : ∀ w ≤ v', pub' w = pub w) :
    Flow d pub' img v q img' v' := by
  induction h with
  | nil => exact .nil _ _
  | cons hf hq ih =>
    refine .cons ⟨hf.stream, hf.marked, hf.wf, hf.pos, hf.le, hf.same, hf.covers, ?_⟩ (ih hp)
    rw [Snapshot, hp _ hq.le]
    exact hf.published

end

/-- The receiving node, and the message that `tasvir_handle_msg_mem` worked off last. -/
structure Sink where
  r : Receiver
  handled : Option MemMsg

def Sink.handle (late : Bool) (k : Sink) (m : MemMsg) : Sink :=
  { r := k.r.handleMsgMem late false m
    handled := if k.r.enqueue then k.handled else some m }

/-- An internal sync with the deferred messages after it. -/
def Sink.sync (d : AreaDesc) (evs : List SyncEvent) (k : Sink) : Sink :=
  (k.r.syncJob d evs).ring.foldl (Sink.handle false)
    { k with r := { k.r.syncJob d evs with ring := [] } }

theorem Sink.sync_receiver (d : AreaDesc) (evs : List SyncEvent) (k : Sink) :
    (k.sync d evs).r = k.r.internalSync d evs := by
  have hfold (ms : List MemMsg) (k : Sink) : (ms.foldl (Sink.handle false) k).r =
      ms.foldl (Receiver.handleMsgMem false false) k.r := by
    induction ms generalizing k with
    | nil => rfl
    | cons m ms ih => exact ih (k.handle false m)
  exact hfold _ _

/-- What is written so far of the emission the receiver is in: `rest` of it is
still to come. -/
def Receiver.Within (d : AreaDesc) (r : Receiver) (img : Mem) (rest : List MemMsg) : Prop :=
  (r.pending = false ∧ (∀ m ∈ rest, m.version = r.lastSyncExtV) ∧
    ∀ x, d.Tracked x → r.mem.rw x = img x) ∨
  (r.pending = true ∧ Stream d r.lastSyncExtV img r.lastSyncExtBytes rest ∧ Marked true rest ∧
    ∀ x, d.Tracked x → ¬Covers (rest.map MemMsg.run) (x/64) → r.mem.rw x = img x)

/-- The receiver with the messages `net` on their way to it; `img` and `v` are
those of the last emission. -/
structure SinkInv (d : AreaDesc) (pub : ℕ → Mem) (img : Mem) (v : ℕ) (k : Sink)
    (net : List MemMsg) : Prop where
  sound : k.r.Sound d
  attached : k.r.hasHeader = true
  ignore : k.r.ignore = false
  empty : k.r.enqueue = false → k.r.ring = []
  flow : ∃ img₁ rest q, k.r.ring ++ net = rest ++ q ∧ (∀ m ∈ rest, m.Wf) ∧
    (rest ≠ [] → k.r.lastSyncExtV ≠ 0) ∧ Flow d pub img₁ k.r.lastSyncExtV q img v ∧
    (k.r.lastSyncExtV ≠ 0 → Snapshot d pub k.r.lastSyncExtV img₁) ∧ k.r.Within d img₁ rest
  active : k.r.pending = false → k.r.lastSyncExtV ≠ 0 → k.r.active = true
  handled : ∀ m, k.handled = some m → m.version = k.r.lastSyncExtV ∧ m.version ≠ 0 ∧
    (m.last = true → k.r.pending = false)

section
variable {d : AreaDesc} {pub : ℕ → Mem} {img : Mem} {v : ℕ} {k : Sink} {net : List MemMsg}

/-- A message of the version the receiver has is dropped. -/
theorem SinkInv.drop (h : SinkInv d pub img v k net) (late : Bool) (m : MemMsg)
    (net' : List MemMsg) (he : k.r.enqueue = false) (hp : k.r.pending = false)
    (hv : m.version = k.r.lastSyncExtV) (h0 : m.version ≠ 0)
    (hflow : ∃ img₁ rest q, net' = rest ++ q ∧ (∀ m ∈ rest, m.Wf) ∧
      (rest ≠ [] → k.r.lastSyncExtV ≠ 0) ∧ Flow d pub img₁ k.r.lastSyncExtV q img v ∧
      (k.r.lastSyncExtV ≠ 0 → Snapshot d pub k.r.lastSyncExtV img₁) ∧ k.r.Within d img₁ rest) :
    SinkInv d pub img v (k.handle late m) net' := by
  have heq : k.handle late m = ⟨k.r, some m⟩ := by
    rw [Sink.handle, handle_drop late false k.r m he hv.symm (Or.inr hp), he]
    rfl
  rw [heq]
  refine ⟨h.sound, h.attached, h.ignore, h.empty, ?_, h.active, ?_⟩
  · simp only [h.empty he, List.nil_append]
    exact hflow
  · intro m' hm'
    rw [← Option.some.inj hm']
    exact ⟨hv, h0, fun _ => hp⟩

/-- A message in its place is taken in. -/
theorem SinkInv.accept (h : SinkInv d pub img v k net) (late : Bool) (m : MemMsg)
    (rest q : List MemMsg) (img₁ : Mem) (v₁ : ℕ) (he : k.r.enqueue = false)
    (hin : k.r.InPlace m) (hwf : ∀ n ∈ m :: rest, n.Wf) (h0 : v₁ ≠ 0)
    (hs : Stream d v₁ img₁ m.prevBytes (m :: rest)) (hm : Marked true (m :: rest))
    (hq : Flow d pub img₁ v₁ q img v) (hpub : Snapshot d pub v₁ img₁)
    (hrw : ∀ x, d.Tracked x → ¬Covers ((m :: rest).map MemMsg.run) (x/64) →
      k.r.mem.rw x = img₁ x) :
    SinkInv d pub img v (k.handle late m) (rest ++ q) := by
  obtain ⟨a, n, ha, -⟩ := hs.1.lines
  have hver := hs.1.version_eq
  have hlast := Marked.last_iff (p := []) hm
  have heq : k.handle late m = ⟨k.r.accept late m (64*a), some m⟩ := by
    rw [Sink.handle, handle_accept late false k.r m (64*a) h.attached he ha hin, he]
    rfl
  have hdone : ∀ x, d.Tracked x → ¬Covers (rest.map MemMsg.run) (x/64) →
      (k.r.accept late m (64*a)).mem.rw x = img₁ x :=
    fun x hx => accept_done hs.1 ha k.r late (hrw x hx)
  rw [heq]
  refine ⟨?_, h.attached, rfl, fun _ => h.empty he, ?_, ?_, ?_⟩
  · have hsound := h.sound.handle late false (hwf m List.mem_cons_self)
    rwa [handle_accept late false k.r m (64*a) h.attached he ha hin] at hsound
  · refine ⟨img₁, rest, q, ?_, fun n hn => hwf n (List.mem_cons_of_mem _ hn), ?_, ?_, ?_, ?_⟩
    · simp only [Receiver.accept, h.empty he, List.nil_append]
    · simp only [Receiver.accept, hver]
      exact fun _ => h0
    · simp only [Receiver.accept, hver]
      exact hq
    · simp only [Receiver.accept, hver]
      exact fun _ => hpub
    · -- the version is complete with its last message, else the rest of it follows
      cases rest with
      | nil =>
        left
        refine ⟨?_, fun n hn => absurd hn List.not_mem_nil, fun x hx => hdone x hx (covers_nil _)⟩
        simp only [Receiver.accept, hlast.mpr rfl, Bool.not_true]
      | cons n rest =>
        right
        have hl : m.last = false := by
          rw [← Bool.not_eq_true]
          exact fun hl => List.cons_ne_nil _ _ (hlast.mp hl)
        refine ⟨by simp only [Receiver.accept, hl, Bool.not_false], ?_, hm.tail, hdone⟩
        simp only [Receiver.accept, hver]
        exact hs.2
  · intro hp _
    simp only [Receiver.accept, Bool.not_eq_false'] at hp
    simp only [Receiver.accept, hp, Bool.or_true]
  · intro m' hm'
    rw [← Option.some.inj hm']
    refine ⟨rfl, by rw [hver]; exact h0, fun hl => ?_⟩
    simp only [Receiver.accept, hl, Bool.not_true]

/-- The next message, with nothing deferred. -/
theorem SinkInv.handle (late : Bool) (m : MemMsg) (h : SinkInv d pub img v k (m :: net))
    (he : k.r.enqueue = false) :
    SinkInv d pub img v (k.handle late m) net := by
  obtain ⟨img₁, rest, q, hnet, hwf, h0, hflow, hpub, hin⟩ := h.flow
  rw [h.empty he, List.nil_append] at hnet
  cases rest with
  | cons m' rest =>
    rw [List.cons_append, List.cons.injEq] at hnet
    obtain ⟨rfl, rfl⟩ := hnet
    have hne := h0 (List.cons_ne_nil _ _)
    rcases hin with ⟨hp, hver, hrw⟩ | ⟨hp, hs, hm, hrw⟩
    · -- the rest of a repeated emission
      have hv := hver m List.mem_cons_self
      exact h.drop late m _ he hp hv (by rw [hv]; exact hne) ⟨img₁, rest, q, rfl,
        fun n hn => hwf n (List.mem_cons_of_mem _ hn), fun _ => hne, hflow, hpub,
        Or.inl ⟨hp, fun n hn => hver n (List.mem_cons_of_mem _ hn), hrw⟩⟩
    · have hprev := hs.1.prev_eq
      rw [← hprev] at hs
      exact h.accept late m rest q img₁ k.r.lastSyncExtV he
        (Or.inr ⟨hs.1.version_eq.symm, hp, h.ignore, hprev.symm⟩) hwf hne hs hm hflow (hpub hne) hrw
  | nil =>
    have hidle : k.r.pending = false ∧ ∀ x, d.Tracked x → k.r.mem.rw x = img₁ x := by
      rcases hin with ⟨hp, -, hrw⟩ | ⟨-, -, ⟨ms, z, hnil, -⟩, -⟩
      · exact ⟨hp, hrw⟩
      · exact absurd hnil (by simp)
    rw [List.nil_append] at hnet
    cases hflow with
    | nil => exact absurd hnet (List.cons_ne_nil _ _)
    | @cons _ img₂ _ _ v₂ _ ms q hf hq =>
      cases ms with
      | nil =>
        obtain ⟨ms, z, hnil, -⟩ := hf.marked
        exact absurd hnil (by simp)
      | cons m' ms =>
        rw [List.cons_append, List.cons.injEq] at hnet
        obtain ⟨rfl, rfl⟩ := hnet
        have hver := hf.stream.1.version_eq
        have hpos : v₂ ≠ 0 := Nat.pos_iff_ne_zero.mp hf.pos
        by_cases hv : k.r.lastSyncExtV = v₂
        · -- the version is there already
          subst hv
          refine h.drop late m _ he hidle.1 hver (by rw [hver]; exact hpos) ⟨img₂, ms, q, rfl,
            fun n hn => hf.wf n (List.mem_cons_of_mem _ hn), fun _ => hpos, hq, fun _ => hf.published,
            Or.inl ⟨hidle.1, ?_, ?_⟩⟩
          · intro n hn
            exact (hf.stream.mem (List.mem_cons_of_mem _ hn)).1.version_eq
          · intro x hx
            rw [hidle.2 x hx, hf.same rfl x hx]
        · have hprev := hf.stream.1.prev_eq
          have hs := hf.stream
          rw [← hprev] at hs
          refine h.accept late m ms q img₂ v₂ he (Or.inl ⟨?_, hprev⟩) hf.wf hpos hs hf.marked hq
            hf.published ?_
          · rw [hver]
            exact hv
          · intro x hx hc
            rw [hidle.2 x hx]
            by_contra hne
            exact hc (hf.covers x hx hne)

/-- The next message, deferred behind others. -/
theorem SinkInv.defer (late : Bool) (m : MemMsg) (h : SinkInv d pub img v k (m :: net))
    (he : k.r.enqueue = true) (hwf : m.Wf) : SinkInv d pub img v (k.handle late m) net := by
  have heq : k.handle late m = { k with r := { k.r with ring := k.r.ring ++ [m] } } := by
    rw [Sink.handle, handle_queue late k.r m h.attached he, if_pos he]
  have hsound := h.sound.handle late false hwf
  rw [handle_queue late k.r m h.attached he] at hsound
  rw [heq]
  refine ⟨hsound, h.attached, h.ignore, ?_, ?_, h.active, h.handled⟩
  · intro hf
    simp only [he, Bool.true_eq_false] at hf
  · obtain ⟨img₁, rest, q, hnet, hrest⟩ := h.flow
    refine ⟨img₁, rest, q, ?_, hrest⟩
    rw [List.append_assoc]
    exact hnet

/-- Every message on its way is well formed. -/
theorem SinkInv.head_wf (m : MemMsg) (h : SinkInv d pub img v k (m :: net)) : m.Wf := by
  have hall (q : List MemMsg) (img₁ img₂ : Mem) (v₁ v₂ : ℕ) (hq : Flow d pub img₁ v₁ q img₂ v₂) :
      ∀ n ∈ q, n.Wf := by
    induction hq with
    | nil => exact fun n hn => absurd hn List.not_mem_nil
    | cons hf _ ih =>
      intro n hn
      rcases List.mem_append.mp hn with hn | hn
      · exact hf.wf n hn
      · exact ih n hn
  obtain ⟨img₁, rest, q, hnet, hwf, -, hflow, -⟩ := h.flow
  have hm : m ∈ rest ++ q := by
    rw [← hnet]
    exact List.mem_append_right _ List.mem_cons_self
  rcases List.mem_append.mp hm with hm | hm
  · exact hwf m hm
  · exact hall q _ _ _ _ hflow m hm

/-- Within the first half of the interval no message starts to defer others. -/
theorem SinkInv.direct (m : MemMsg) (h : SinkInv d pub img v k (m :: net))
    (he : k.r.enqueue = false) : (k.handle false m).r.enqueue = false := by
  obtain ⟨b, n, ha, -⟩ := SinkInv.head_wf m h
  simp only [Sink.handle]
  rcases handle_cases false false k.r m (64*b) ha h.sound.skipping with ⟨-, heq⟩ | ⟨-, hf, -⟩ |
    ⟨-, hf, -⟩ | ⟨-, -, -, -, heq⟩ | ⟨-, -, -, heq⟩ | ⟨-, -, -, -, heq⟩
  · rw [heq]
    exact he
  · rw [he] at hf
    exact Bool.noConfusion hf
  · rw [he] at hf
    exact Bool.noConfusion hf
  · rw [heq]
    exact he
  · rw [heq]
    simp only [Receiver.accept, Bool.and_false]
  · rw [heq]
    simp only [Receiver.misplace, Bool.and_false]

/-- Run lemma for the deferred messages. -/
theorem SinkInv.drain (ms : List MemMsg) (h : SinkInv d pub img v k (ms ++ net))
    (he : k.r.enqueue = false) :
    SinkInv d pub img v (ms.foldl (Sink.handle false) k) net := by
  induction ms generalizing k with
  | nil => exact h
  | cons m ms ih => exact ih (SinkInv.handle false m h he) (SinkInv.direct m h he)

theorem SinkInv.sync (hd : d.Wf) (h : SinkInv d pub img v k net) (evs : List SyncEvent)
    (hev : Completes d evs) (hsize : SmallChunks evs) :
    SinkInv d pub img v (k.sync d evs) net := by
  obtain ⟨hsound, -⟩ := h.sound.syncJob hd evs hev hsize
  have hsound' : Receiver.Sound d { k.r.syncJob d evs with ring := [] } :=
    ⟨hsound.awake, hsound.clean, hsound.lists, hsound.deferring, hsound.skipping, hsound.counted,
      fun m hm => absurd hm List.not_mem_nil⟩
  have hrw := rw_events d false evs k.r.mem
  obtain ⟨img₁, rest, q, hnet, hwf, h0, hflow, hpub, hin⟩ := h.flow
  unfold Sink.sync
  by_cases hs : k.r.scheduled = true
  · have heq : k.r.syncJob d evs =
        { k.r with mem := syncEvents d false k.r.mem evs, enqueue := false } := if_pos hs
    rw [heq] at hsound' ⊢
    refine SinkInv.drain k.r.ring ⟨hsound', h.attached, h.ignore, fun _ => rfl, ?_, h.active,
      h.handled⟩ rfl
    refine ⟨img₁, rest, q, hnet, hwf, h0, hflow, hpub, ?_⟩
    rcases hin with ⟨hp, hver, hcells⟩ | ⟨hp, hst, hm, hcells⟩
    · refine Or.inl ⟨hp, hver, fun x hx => ?_⟩
      simp only [hrw]
      exact hcells x hx
    · refine Or.inr ⟨hp, hst, hm, fun x hx hc => ?_⟩
      simp only [hrw]
      exact hcells x hx hc
  · -- an area that is left out has nothing deferred
    have heq : k.r.syncJob d evs = k.r := if_neg hs
    have he : k.r.enqueue = false := by
      rw [← Bool.not_eq_true]
      intro he
      obtain ⟨hp, ha⟩ := h.sound.deferring he
      apply hs
      simp only [Receiver.scheduled, h.attached, ha, hp, h.sound.awake, Bool.or_self,
        Bool.not_false, Bool.and_self]
    have hring := h.empty he
    rw [heq] at hsound' ⊢
    rw [hring, List.foldl_nil]
    refine ⟨hsound', h.attached, h.ignore, fun _ => rfl, ?_, h.active, h.handled⟩
    rw [hring] at hnet
    exact ⟨img₁, rest, q, hnet, hwf, h0, hflow, hpub, hin⟩

end

/-- The owner's node and the receiving node of one area; `delivered` counts the
messages that have arrived, and `published` keeps the owner's copy of every version. -/
structure ReplState where
  owner : OwnerNode
  published : ℕ → Mem
  delivered : ℕ
  sink : Sink

inductive ReplAct
  | update (ops : List OwnerOp)
  | internal (evs : List SyncEvent) (timeUs : ℕ)
  /-- an external sync, of new versions or again of old ones -/
  | external (e : ExtCall)
  | rotate (timeUs : ℕ)
  /-- the next message arrives -/
  | deliver (late : Bool)
  | boot
  /-- an internal sync on the receiving node -/
  | sync (evs : List SyncEvent)

def ReplState.next (d : AreaDesc) (s : ReplState) : ReplAct → ReplState
  | .update ops => { s with owner := { s.owner with mem := s.owner.mem.ops d ops } }
  | .internal evs timeUs => { s with
      owner := s.owner.internal d evs timeUs
      published := s.owner.record d evs timeUs s.published }
  | .external e => { s with owner := s.owner.external e }
  | .rotate timeUs => { s with owner := s.owner.rotate d timeUs }
  | .deliver late => match s.owner.tx.ring[s.delivered]? with
    | some m => { s with delivered := s.delivered+1, sink := s.sink.handle late m }
    | none => s
  | .boot => { s with sink := { s.sink with r := { s.sink.r with booting := false } } }
  | .sync evs => { s with sink := s.sink.sync d evs }

/-- A new area, and a node that knows where it is and has the same empty copies. -/
structure ReplState.Fresh (d : AreaDesc) (s : ReplState) : Prop where
  lists : ∀ t, (s.owner.mem.lists t).l = [] ∧ (s.owner.mem.lists t).changed = 0
  versions : s.owner.mem.ro (d.h+offVersion) = 0 ∧ s.owner.mem.rw (d.h+offVersion) = 1 ∧
    (s.owner.info 0).versionEnd = 0
  published : ∀ x, d.Tracked x → s.published 0 x = s.owner.mem.ro x
  ring : s.owner.tx.ring = [] ∧ s.delivered = 0
  receiver : (RemoteNode.mk s.sink.r 0).Fresh d ∧ s.sink.r.hasHeader = true ∧
    s.sink.r.lastSyncExtV = 0 ∧ s.sink.handled = none
  copies : ∀ x, d.Tracked x → s.sink.r.mem.rw x = s.owner.mem.ro x

/-- Every message arrives, in order, and the queue for deferred ones has room. An
external sync of the root area stores the root descriptor in the daemon's list,
which must not be full. -/
def replicationSystem (d : AreaDesc) : System ReplState ReplAct where
  init := ReplState.Fresh d
  pre s a := match a with
    | .update ops => ∀ op ∈ ops, op.Valid d
    | .internal evs _ => Completes d evs
    | .external e => e.d = d ∧ (d.isRoot = true → (s.owner.mem.lists 0).l.length < syncListLen)
    | .sync evs => s.sink.r.booting = false ∧ Completes d evs
    | _ => True
  next := ReplState.next d

def ReplInv (d : AreaDesc) (s : ReplState) : Prop :=
  s.delivered ≤ s.owner.tx.ring.length ∧ ∃ img v, SenderInv d s.owner s.published img v ∧
    SinkInv d s.published img v s.sink (s.owner.tx.ring.drop s.delivered)

section
variable {d : AreaDesc} {pub pub' : ℕ → Mem} {img : Mem} {v : ℕ} {k : Sink} {net : List MemMsg}

theorem SinkInv.record (h : SinkInv d pub img v k net) (hp : ∀ w ≤ v, pub' w = pub w) :
    SinkInv d pub' img v k net := by
  obtain ⟨img₁, rest, q, hnet, hwf, h0, hflow, hsnap, hin⟩ := h.flow
  refine ⟨h.sound, h.attached, h.ignore, h.empty, ⟨img₁, rest, q, hnet, hwf, h0,
    hflow.record hp, ?_, hin⟩, h.active, h.handled⟩
  intro hne
  rw [Snapshot, hp _ hflow.le]
  exact hsnap hne

theorem SinkInv.extend (h : SinkInv d pub img v k net) {img' : Mem} {v' : ℕ} {ms : List MemMsg}
    (hf : Follows d pub img v img' v' ms) : SinkInv d pub img' v' k (net ++ ms) := by
  obtain ⟨img₁, rest, q, hnet, hwf, h0, hflow, hsnap, hin⟩ := h.flow
  refine ⟨h.sound, h.attached, h.ignore, h.empty, ⟨img₁, rest, q ++ ms, ?_, hwf, h0,
    hflow.snoc hf, hsnap, hin⟩, h.active, h.handled⟩
  rw [← List.append_assoc, hnet, List.append_assoc]

theorem SinkInv.booted (h : SinkInv d pub img v k net) :
    SinkInv d pub img v { k with r := { k.r with booting := false } } net :=
  ⟨⟨h.sound.awake, h.sound.clean, h.sound.lists, h.sound.deferring, h.sound.skipping,
    h.sound.counted, h.sound.queued⟩, h.attached, h.ignore, h.empty, h.flow, h.active, h.handled⟩

end

section
variable {d : AreaDesc} (hd : d.Wf) (hpos : 0 < d.offsetLogEnd) (hend : d.offsetLogEnd < 2^32)
variable (hroot : d.isRoot = true → d.offsetLogEnd ≤ 2^31)

include hd in
theorem replInv_init {s : ReplState} (h : s.Fresh d) : ReplInv d s := by
  obtain ⟨hring, hzero⟩ := h.ring
  obtain ⟨hf, hh, hx, hn⟩ := h.receiver
  obtain ⟨-, hp, hg, he⟩ := hf.flags
  refine ⟨by rw [hzero]; exact Nat.zero_le _, s.owner.mem.ro, 0, ?_, ?_⟩
  · exact SenderInv.fresh h.lists h.versions h.published
  · have hsound := sound_reachable hd (.init hf)
    refine ⟨hsound, hh, hg, fun _ => hf.ring, ?_, ?_, ?_⟩
    · refine ⟨s.owner.mem.ro, [], [], ?_, ?_, fun hne => absurd rfl hne, ?_, ?_, ?_⟩
      · rw [hring, List.drop_nil, List.append_nil]
        exact hf.ring
      · exact fun m hm => absurd hm List.not_mem_nil
      · rw [hx]
        exact .nil _ _
      · exact fun hne => absurd hx hne
      · exact Or.inl ⟨hp, fun m hm => absurd hm List.not_mem_nil, h.copies⟩
    · exact fun _ hne => absurd hx hne
    · intro m hm
      rw [hn] at hm
      exact absurd hm (by simp)

include hd hpos hend hroot in
theorem replInv_step {s : ReplState} (h : ReplInv d s) (a : ReplAct)
    (ha : (replicationSystem d).pre s a) : ReplInv d (s.next d a) := by
  obtain ⟨hle, img, v, hsend, hsink⟩ := h
  cases a with
  | update ops => exact ⟨hle, img, v, hsend.update ops ha, hsink⟩
  | internal evs timeUs =>
    obtain ⟨hsend', hrec⟩ := hsend.internal hd hpos hend hroot evs ha timeUs
    have htx := s.owner.internal_tx d evs timeUs
    refine ⟨?_, img, v, hsend', ?_⟩
    · simp only [ReplState.next, htx]
      exact hle
    · simp only [ReplState.next, htx]
      exact hsink.record (fun w hw => hrec w (hw.trans hsend.last))
  | external e =>
    rcases hsend.external hd hpos hend e ha.1 ha.2 with ⟨hring, hsend', -⟩ | ⟨ms, hring, hf, hsend', -⟩
    · refine ⟨?_, img, v, hsend', ?_⟩
      · simp only [ReplState.next, hring]
        exact hle
      · simp only [ReplState.next, hring]
        exact hsink
    · refine ⟨?_, _, _, hsend', ?_⟩
      · simp only [ReplState.next, hring, List.length_append]
        exact Nat.le_add_right_of_le hle
      · simp only [ReplState.next, hring]
        rw [List.drop_append_of_le_length hle]
        exact hsink.extend hf
  | rotate timeUs => exact ⟨hle, img, v, hsend.rotate timeUs, hsink⟩
  | deliver late =>
    simp only [ReplState.next]
    cases hm : s.owner.tx.ring[s.delivered]? with
    | none => exact ⟨hle, img, v, hsend, hsink⟩
    | some m =>
      obtain ⟨hlt, hget⟩ := List.getElem?_eq_some_iff.mp hm
      rw [List.drop_eq_getElem_cons hlt, hget] at hsink
      refine ⟨hlt, img, v, hsend, ?_⟩
      cases he : s.sink.r.enqueue
      · exact SinkInv.handle late m hsink he
      · exact SinkInv.defer late m hsink he (SinkInv.head_wf m hsink)
  | boot => exact ⟨hle, img, v, hsend, hsink.booted⟩
  | sync evs =>
    exact ⟨hle, img, v, hsend, hsink.sync hd evs ha.2 (ha.2.smallChunks hend)⟩

include hd hpos hend hroot in
theorem replInv_reachable {s : ReplState} (h : (replicationSystem d).Reachable s) :
    ReplInv d s := by
  apply h.invariant
  · intro s hs
    exact replInv_init hd hs
  · intro s a hs ha
    exact replInv_step hd hpos hend hroot hs a ha

end

/-- Messages of the version a receiver has are dropped at once, or deferred and
dropped after the sync. -/
theorem repeated_version {d : AreaDesc} {r : Receiver} (hh : r.hasHeader = true)
    (ha : r.active = true) (hw : r.sleeping = false) (hp : r.pending = false)
    (late : MemMsg → Bool) (ms : List MemMsg) (hms : ∀ n ∈ ms, n.version = r.lastSyncExtV)
    (evs : List SyncEvent) :
    (deliver late r ms).mem.rw = r.mem.rw ∧
    (r.ring = [] → ((deliver late r ms).internalSync d evs).mem.rw = r.mem.rw) := by
  have hqueue : ∃ ns, (∀ n ∈ ns, n.version = r.lastSyncExtV) ∧
      deliver late r ms = { r with ring := r.ring ++ ns } := by
    cases he : r.enqueue
    · refine ⟨[], fun n hn => absurd hn List.not_mem_nil, ?_⟩
      rw [deliver_drop late ms hms r he rfl hp, List.append_nil, ← he]
    · refine ⟨ms, hms, ?_⟩
      rw [deliver_queue late ms r hh he, ← he]
  obtain ⟨ns, hns, heq⟩ := hqueue
  refine ⟨by rw [heq], fun hring => ?_⟩
  have hsched : Receiver.scheduled { r with ring := ns } = true := by
    simp only [Receiver.scheduled, hh, ha, hp, hw, Bool.or_self, Bool.not_false, Bool.and_self]
  have hdrop := deliver_drop (fun _ => false) ns hns
    { r with mem := syncEvents d false r.mem evs, enqueue := false, ring := [] } rfl rfl hp
  rw [heq, hring, List.nil_append, Receiver.internalSync, Receiver.syncJob, if_pos hsched,
    Receiver.drain]
  rw [deliver] at hdrop
  simp only [hdrop]
  exact rw_events d false evs r.mem

/-- End-to-end replication: when the message worked off last was the last one of
an emission of version `v` and an internal sync completes, the RO payload is what
the owner published as `v` and the RO header has `v`; messages of `v` that arrive
after that do not change the RW copy, neither at once nor after a further sync. -/
theorem replication_end_to_end (d : AreaDesc) (hd : d.Wf) (hpos : 0 < d.offsetLogEnd)
    (hend : d.offsetLogEnd < 2^32) (hroot : d.isRoot = true → d.offsetLogEnd ≤ 2^31)
    (s : ReplState) (h : (replicationSystem d).Reachable s) (m : MemMsg)
    (hm : s.sink.handled = some m) (hl : m.last = true) (hb : s.sink.r.booting = false)
    (evs : List SyncEvent) (hev : Completes d evs) :
    (∀ x, d.Payload x → (s.sink.sync d evs).r.mem.ro x = s.published m.version x) ∧
    (s.sink.sync d evs).r.mem.ro (d.h+offVersion) = m.version ∧
    ∀ (late : MemMsg → Bool) (ms : List MemMsg), (∀ n ∈ ms, n.version = m.version) →
      (deliver late s.sink.r ms).mem.rw = s.sink.r.mem.rw ∧
      (s.sink.r.ring = [] →
        ((deliver late s.sink.r ms).internalSync d evs).mem.rw = s.sink.r.mem.rw) := by
  obtain ⟨-, img, v, -, hsink⟩ := replInv_reachable hd hpos hend hroot h
  obtain ⟨hver, h0, hidle⟩ := hsink.handled m hm
  have hp := hidle hl
  have hne : s.sink.r.lastSyncExtV ≠ 0 := by
    rw [← hver]
    exact h0
  have ha := hsink.active hp hne
  obtain ⟨img₁, rest, q, -, -, -, -, hsnap, hin⟩ := hsink.flow
  obtain ⟨hversion, hpub⟩ := hsnap hne
  have hrw : ∀ x, d.Tracked x → s.sink.r.mem.rw x = img₁ x := by
    rcases hin with ⟨-, -, hrw⟩ | ⟨hf, -⟩
    · exact hrw
    · rw [hp] at hf
      exact Bool.noConfusion hf
  have hro : ∀ x, d.Tracked x → (s.sink.sync d evs).r.mem.ro x = img₁ x := by
    intro x hx
    rw [Sink.sync_receiver, internalSync_ro hd hsink.sound hb evs hev (hev.smallChunks hend) x
      (hx.has hd hpos), if_pos ⟨hsink.attached, ha, hp⟩, hrw x hx]
  refine ⟨?_, ?_, ?_⟩
  · intro x hx
    rw [hro x (Or.inl hx), hpub x (Or.inl hx), hver]
  · rw [hro _ (Or.inr rfl), hversion, hver]
  · intro late ms hms
    exact repeated_version hsink.attached ha hsink.sound.awake hp late ms
      (fun n hn => (hms n hn).trans hver) evs

theorem deliver_step {d : AreaDesc} {s : ReplState} (h : (replicationSystem d).Reachable s)
    (late : Bool) (m : MemMsg) (ns : List MemMsg)
    (hnet : s.owner.tx.ring.drop s.delivered = m :: ns) :
    (replicationSystem d).Reachable
      { s with delivered := s.delivered+1, sink := s.sink.handle late m } := by
  have hget : s.owner.tx.ring[s.delivered]? = some m := by
    rw [← List.head?_drop, hnet]
    rfl
  have hstep : (replicationSystem d).Reachable (s.next d (.deliver late)) :=
    h.step (a := ReplAct.deliver late) trivial
  simp only [ReplState.next, hget] at hstep
  exact hstep

/-- All messages on their way arrive within the first half of an interval. -/
theorem deliver_all {d : AreaDesc} (hd : d.Wf) (hpos : 0 < d.offsetLogEnd)
    (hend : d.offsetLogEnd < 2^32) (hroot : d.isRoot = true → d.offsetLogEnd ≤ 2^31)
    (ns : List MemMsg) (z : MemMsg) (s : ReplState) (h : (replicationSystem d).Reachable s)
    (he : s.sink.r.enqueue = false) (hb : s.sink.r.booting = false)
    (hnet : s.owner.tx.ring.drop s.delivered = ns ++ [z]) :
    ∃ s', (replicationSystem d).Reachable s' ∧ s'.sink.handled = some z ∧
      s'.sink.r.booting = false := by
  induction ns generalizing s with
  | nil =>
    refine ⟨_, deliver_step h false z [] hnet, ?_, (handle_ro false false s.sink.r z hb).2⟩
    simp only [Sink.handle, he, Bool.false_eq_true, ↓reduceIte]
  | cons n ns ih =>
    obtain ⟨-, img, v, -, hsink⟩ := replInv_reachable hd hpos hend hroot h
    rw [hnet] at hsink
    refine ih _ (deliver_step h false n _ hnet) (SinkInv.direct n hsink he)
      (handle_ro false false s.sink.r n hb).2 ?_
    have htail := congrArg List.tail hnet
    rwa [List.tail_drop] at htail

/-- A new area of the smallest size and a node that is attached to it. -/
def newPair : ReplState :=
  { owner := { dirtyNode 32768 with mem := emptyMem }
    published := fun _ _ => 0, delivered := 0, sink := ⟨newReceiver.r, none⟩ }

/-- The owner logs the whole area and publishes it as version 1, an external sync
sends it, and all of it arrives. -/
theorem replication_first_version :
    ∃ (s : ReplState) (m : MemMsg) (evs : List SyncEvent),
      (replicationSystem (areaOf 32768)).Reachable s ∧ s.sink.handled = some m ∧
      m.last = true ∧ Completes (areaOf 32768) evs ∧
      (∀ x, (areaOf 32768).Payload x →
        (s.sink.sync (areaOf 32768) evs).r.mem.ro x = s.published m.version x) ∧
      (s.sink.sync (areaOf 32768) evs).r.mem.ro ((areaOf 32768).h+offVersion) = m.version := by
  have hd : (areaOf 32768).Wf := areaOf_wf ⟨1, rfl⟩ (by norm_num)
  have hpos : 0 < (areaOf 32768).offsetLogEnd := by norm_num [areaOf]
  have hend : (areaOf 32768).offsetLogEnd < 2^32 := by norm_num [areaOf]
  have hroot : (areaOf 32768).isRoot = true → (areaOf 32768).offsetLogEnd ≤ 2^31 := by
    norm_num [areaOf]
  have hev : Completes (areaOf 32768) [.parse 0 0 32768, .process 0] :=
    completes_whole (areaOf 32768) hd hpos
  have hinit : (replicationSystem (areaOf 32768)).Reachable newPair := by
    refine .init ⟨fun _ => ⟨rfl, rfl⟩, ⟨rfl, rfl, rfl⟩, fun _ _ => rfl, ⟨rfl, rfl⟩,
      ⟨⟨⟨rfl, rfl, rfl, rfl⟩, rfl, fun _ _ => rfl, fun _ _ hit => absurd hit List.not_mem_nil⟩,
        rfl, rfl, rfl⟩, fun _ _ => rfl⟩
  have hlogged : (replicationSystem (areaOf 32768)).Reachable
      { newPair with owner := dirtyNode 32768 } :=
    hinit.step (a := ReplAct.update [.log (0, 32768)]) (by
      intro op hop
      rw [List.mem_singleton.mp hop]
      exact ⟨by norm_num, by norm_num [areaOf]⟩)
  obtain ⟨c, -, hnode, hpass, hpivot, hlist, hset, -⟩ := dirty_published 32768 ⟨1, rfl⟩
    (by norm_num) (by norm_num) (by decide)
  -- the owner publishes version 1 and sends it in one external sync
  have hpub := hlogged.step (a := ReplAct.internal [.parse 0 0 32768, .process 0] 5) hev
  simp only [replicationSystem, ReplState.next, ← hnode] at hpub
  have hsent := hpub.step (a := ReplAct.external (firstCall 32768))
    ⟨rfl, fun hf => absurd hf (by decide)⟩
  have hempty : c.node.tx.ring = [] := by
    rw [hnode, OwnerNode.internal_tx]
    rfl
  obtain ⟨ms, rs, hsend, ⟨ns, z, hms, -, hz⟩, -⟩ := external_emits (firstCall 32768) hd c.node.ctx
    c.node.logs (by rw [hlist]; exact fun it hit => absurd hit List.not_mem_nil) hpass
    (by intro a ha; simp only [firstCall, areaOf] at ha; omega)
    ⟨0, by norm_num [firstCall, areaOf], 0, by rw [hpivot]; norm_num, hset 0 (by norm_num)⟩
  -- the receiver handles the messages up to the last one
  obtain ⟨s, hs, hhandled, hb⟩ := deliver_all hd hpos hend hroot ns z _ hsent rfl rfl (by
    have hring := hsend.ring
    simp only [OwnerNode.ctx, hempty, List.nil_append] at hring
    rw [← hms]
    exact hring)
  obtain ⟨h1, h2, -⟩ := replication_end_to_end (areaOf 32768) hd hpos hend hroot s hs z hhandled hz
    hb _ hev
  exact ⟨s, z, _, hs, hhandled, hz, hev, h1, h2⟩

end Tasvir
