import Mathlib.Tactic
import Tasvir.Machine
import Tasvir.Receiver

/-! What holds of a remote area in every state of its receiver, whatever is lost:
the RO copy differs from the RW copy in logged lines only. -/
namespace Tasvir
open RunLength Machine

/-- The cells of an area that a version fixes: the payload and the version. -/
def AreaDesc.Tracked (d : AreaDesc) (x : ℕ) : Prop := d.Payload x ∨ x = d.h+offVersion

theorem AreaDesc.Tracked.has {d : AreaDesc} (hd : d.Wf) (hpos : 0 < d.offsetLogEnd) {x : ℕ}
    (h : d.Tracked x) : d.Has (x/64) := by
  rcases h with h | h
  · exact h.has hd
  · obtain ⟨a, ha⟩ := hd.h_aligned
    obtain ⟨b, hb⟩ := hd.end_aligned
    simp only [offVersion] at h
    exact ⟨by omega, by omega⟩

/-- A message that writes whole lines of the data region. -/
def MemMsg.Wf (m : MemMsg) : Prop :=
  ∃ a n, m.addr = some (64*a) ∧ m.len = 64*n ∧ 0 < n ∧ 64*(a+n) ≤ 2^40

theorem MemMsg.Wf.run {m : MemMsg} {a n : ℕ} (ha : m.addr = some (64*a)) (hn : m.len = 64*n) :
    m.run = (a, n) := by
  simp only [MemMsg.run, ha, hn, Option.getD_some,
    Nat.mul_div_cancel_left _ (show 0 < 64 by norm_num)]

/-- Receiving logs exactly the lines that are written. -/
theorem receive_spec {m : MemMsg} (hm : m.Wf) {a : ℕ} (ha : m.addr = some a) (mem : NodeMem)
    (booting : Bool) :
    (∀ l, lineBit (mem.receive booting m a).log l = true ↔
      lineBit mem.log l = true ∨ Covers [m.run] l) ∧
    ∀ x, ¬Covers [m.run] (x/64) → (mem.receive booting m a).rw x = mem.rw x ∧
      (mem.receive booting m a).ro x = mem.ro x := by
  obtain ⟨b, n, hb, hn, hpos, hreg⟩ := hm
  have hrun := MemMsg.Wf.run hb hn
  rw [hb] at ha
  have hab := Option.some.inj ha
  subst hab
  obtain ⟨hrw, hro, hlog, -⟩ := mem.receive_frame booting m (64*b)
  have hcov (l : ℕ) : Covers [m.run] l ↔ b ≤ l ∧ l < b+n := by
    rw [covers_cons, hrun]
    simp [covers_nil]
  constructor
  · intro l
    have hset := lineBit_tasvirLog mem.log (addrData+64*b) m.len l (by omega)
      (by rw [addrData]; omega) (by rw [addrData]; omega)
    rw [hlog, hset, Bool.or_eq_true, decide_eq_true_iff, hcov, addrData, hn]
    exact or_congr_right ⟨fun h => by omega, fun h => by omega⟩
  · intro x hx
    rw [hcov] at hx
    have hout (dst : Mem) : storeLines dst m (64*b) x = dst x := by
      rw [storeLines, hn, storeVecRep_lines _ _ _ _ _ hpos, if_neg (by omega)]
    rw [hrw, hro, hout]
    refine ⟨rfl, ?_⟩
    split_ifs
    · exact hout _
    · rfl

/-- A message out of place is written all the same, but ends the pending state. -/
def Receiver.misplace (r : Receiver) (late : Bool) (m : MemMsg) (a : ℕ) : Receiver :=
  { r with
    mem := r.mem.receive r.booting m a
    lastSyncExtV := m.version
    lastSyncExtBytes := (r.enter m).lastSyncExtBytes+m.len
    ignore := true
    pending := false
    active := r.active || m.last
    enqueue := m.last && (!r.booting && late) }

/-- Everything `tasvir_handle_msg_mem` can do with a message. -/
theorem handle_cases (late full : Bool) (r : Receiver) (m : MemMsg) (a : ℕ)
    (ha : m.addr = some a) (hskip : r.ignore = true → r.pending = false) :
    (r.hasHeader = false ∧ r.handleMsgMem late full m = r) ∨
    (r.hasHeader = true ∧ r.enqueue = true ∧ full = false ∧
      r.handleMsgMem late full m = { r with ring := r.ring ++ [m] }) ∨
    (r.hasHeader = true ∧ r.enqueue = true ∧ full = true ∧
      r.handleMsgMem late full m = { r with enqueue := false, ignore := true }) ∨
    (r.hasHeader = true ∧ r.enqueue = false ∧ r.lastSyncExtV = m.version ∧ r.pending = false ∧
      r.handleMsgMem late full m = r) ∨
    (r.hasHeader = true ∧ r.enqueue = false ∧ r.InPlace m ∧
      r.handleMsgMem late full m = r.accept late m a) ∨
    (r.hasHeader = true ∧ r.enqueue = false ∧ ¬r.InPlace m ∧
      (r.lastSyncExtV = m.version → r.pending = true) ∧
      r.handleMsgMem late full m = r.misplace late m a) := by
  cases hh : r.hasHeader
  · left
    simp only [Receiver.handleMsgMem, hh, Bool.not_false, ↓reduceIte, and_self]
  · right
    cases he : r.enqueue
    · right; right
      -- inside of the version that is being received, or the first message of another one
      by_cases hv : r.lastSyncExtV = m.version
      · cases hp : r.pending
        · exact Or.inl ⟨rfl, rfl, hv, rfl, handle_drop late full r m he hv (Or.inr hp)⟩
        · right
          -- a version that goes on is not being skipped
          have hi : r.ignore = false := by
            by_contra hne
            rw [hskip (by simpa using hne)] at hp
            exact Bool.noConfusion hp
          by_cases hb : r.lastSyncExtBytes = m.prevBytes
          · have hin : r.InPlace m := Or.inr ⟨hv, hp, hi, hb⟩
            exact Or.inl ⟨rfl, rfl, hin, handle_accept late full r m a hh he ha hin⟩
          · right
            refine ⟨rfl, rfl, ?_, fun _ => rfl, ?_⟩
            · rintro (⟨hne, -⟩ | ⟨-, -, -, hb'⟩)
              · exact hne hv
              · exact hb hb'
            · have henter : r.enter m = r := if_neg (not_not.mpr hv)
              simp only [Receiver.handleMsgMem, hh, he, henter, hi, hp, Bool.not_true,
                Bool.false_eq_true, ↓reduceIte, Bool.or_self, Receiver.checkBytes, ne_eq, hb,
                not_false_eq_true, Receiver.store, ha, Receiver.finish, Receiver.misplace]
              cases m.last
              · simp only [Bool.false_eq_true, ↓reduceIte, Bool.or_false, Bool.false_and, hv]
              · simp only [↓reduceIte, Bool.or_true, Bool.true_and, Bool.false_or, hv]
      · right
        by_cases hb : m.prevBytes = 0
        · have hin : r.InPlace m := Or.inl ⟨hv, hb⟩
          exact Or.inl ⟨rfl, rfl, hin, handle_accept late full r m a hh he ha hin⟩
        · right
          refine ⟨rfl, rfl, ?_, fun h => absurd h hv, ?_⟩
          · rintro (⟨-, hb'⟩ | ⟨hv', -⟩)
            · exact hb hb'
            · exact hv hv'
          · have henter : r.enter m = { r with
                lastSyncExtV := m.version, lastSyncExtBytes := 0, ignore := false
                pending := true } := if_pos hv
            simp only [Receiver.handleMsgMem, hh, he, henter, Bool.not_true,
              Bool.false_eq_true, ↓reduceIte, Bool.or_self, Receiver.checkBytes, ne_eq,
              Ne.symm hb, not_false_eq_true, Receiver.store, ha, Receiver.finish,
              Receiver.misplace]
            cases m.last
            · simp only [Bool.false_eq_true, ↓reduceIte, Bool.or_false, Bool.false_and]
            · simp only [↓reduceIte, Bool.or_true, Bool.true_and, Bool.false_or]
    · -- messages are deferred: it waits, or the ring is full and the version is given up
      cases hf : full
      · left
        refine ⟨rfl, rfl, rfl, ?_⟩
        rw [handle_queue late r m hh he, hh, he]
      · right; left
        refine ⟨rfl, rfl, rfl, ?_⟩
        simp only [Receiver.handleMsgMem, hh, he, Bool.not_true, Bool.false_eq_true, ↓reduceIte]

/-- What holds of a receiver whatever is lost. -/
structure Receiver.Sound (d : AreaDesc) (r : Receiver) : Prop where
  /-- SLEEPING is set by a writer only, and a remote area has none here -/
  awake : r.sleeping = false
  clean : ∀ x, d.Has (x/64) → lineBit r.mem.log (x/64) = false → r.mem.ro x = r.mem.rw x
  lists : ∀ t, Foreign d (r.mem.lists t).l
  deferring : r.enqueue = true → r.pending = false ∧ r.active = true
  skipping : r.ignore = true → r.pending = false
  counted : r.pending = true → 0 < r.lastSyncExtBytes
  queued : ∀ m ∈ r.ring, m.Wf

section
variable {d : AreaDesc} {r : Receiver}

theorem Receiver.Sound.receive (h : r.Sound d) {m : MemMsg} (hm : m.Wf) {a : ℕ}
    (ha : m.addr = some a) :
    (∀ x, d.Has (x/64) → lineBit (r.mem.receive r.booting m a).log (x/64) = false →
      (r.mem.receive r.booting m a).ro x = (r.mem.receive r.booting m a).rw x) ∧
    ∀ t, Foreign d ((r.mem.receive r.booting m a).lists t).l := by
  obtain ⟨hlog, hout⟩ := receive_spec hm ha r.mem r.booting
  obtain ⟨-, -, -, hlists⟩ := r.mem.receive_frame r.booting m a
  constructor
  · intro x hx hb
    have hno : ¬(lineBit r.mem.log (x/64) = true ∨ Covers [m.run] (x/64)) := by
      rw [← hlog, hb]
      exact Bool.false_ne_true
    obtain ⟨h1, h2⟩ := not_or.mp hno
    rw [(hout x h2).1, (hout x h2).2]
    exact h.clean x hx (by simpa using h1)
  · rw [hlists]
    exact h.lists

/-- Step lemma for a message. -/
theorem Receiver.Sound.handle (h : r.Sound d) (late full : Bool) {m : MemMsg} (hm : m.Wf) :
    (r.handleMsgMem late full m).Sound d := by
  have hwf := hm
  obtain ⟨b, n, hb, hn, hpos, -⟩ := hm
  obtain ⟨hclean, hlists⟩ := h.receive hwf hb
  rcases handle_cases late full r m (64*b) hb h.skipping with ⟨-, heq⟩ | ⟨-, he, -, heq⟩ |
    ⟨-, he, -, heq⟩ | ⟨-, -, -, -, heq⟩ | ⟨-, -, -, heq⟩ | ⟨-, -, -, -, heq⟩
  · rw [heq]
    exact h
  · rw [heq]
    refine ⟨h.awake, h.clean, h.lists, h.deferring, h.skipping, h.counted, ?_⟩
    intro m' hm'
    rcases List.mem_append.mp hm' with hm' | hm'
    · exact h.queued m' hm'
    · rw [List.mem_singleton.mp hm']
      exact hwf
  · rw [heq]
    refine ⟨h.awake, h.clean, h.lists, fun hf => Bool.noConfusion hf, fun _ => ?_, h.counted,
      h.queued⟩
    exact (h.deferring he).1
  · rw [heq]
    exact h
  · rw [heq]
    refine ⟨h.awake, hclean, hlists, ?_, fun hf => Bool.noConfusion hf, ?_, h.queued⟩
    · intro hq
      simp only [Receiver.accept, Bool.and_eq_true] at hq
      simp only [Receiver.accept, hq.1, Bool.not_true, Bool.or_true, and_self]
    · intro _
      simp only [Receiver.accept]
      omega
  · rw [heq]
    refine ⟨h.awake, hclean, hlists, ?_, fun _ => rfl, fun hf => Bool.noConfusion hf, h.queued⟩
    intro hq
    simp only [Receiver.misplace, Bool.and_eq_true] at hq
    simp only [Receiver.misplace, hq.1, Bool.or_true, and_self]

theorem Receiver.Sound.handleAll (h : r.Sound d) (late : MemMsg → Bool) (ms : List MemMsg)
    (hms : ∀ m ∈ ms, m.Wf) :
    (ms.foldl (fun r m => r.handleMsgMem (late m) false m) r).Sound d := by
  induction ms generalizing r with
  | nil => exact h
  | cons m ms ih =>
    exact ih (h.handle (late m) false (hms m List.mem_cons_self))
      (fun m' hm' => hms m' (List.mem_cons_of_mem _ hm'))

/-- A sync that includes the area leaves its two copies equal. -/
theorem Receiver.Sound.syncJob (hd : d.Wf) (h : r.Sound d) (evs : List SyncEvent)
    (hev : Completes d evs) (hsize : SmallChunks evs) :
    (r.syncJob d evs).Sound d ∧
    (r.scheduled = true → ∀ x, d.Has (x/64) → (r.syncJob d evs).mem.ro x = r.mem.rw x) := by
  have hp := syncEvents_published hd false r.mem evs hev hsize h.lists
  have hro : ∀ x, d.Has (x/64) → (syncEvents d false r.mem evs).ro x = r.mem.rw x := by
    intro x hx
    rw [hp.ro_eq x hx]
    cases hb : lineBit r.mem.log (x/64)
    · exact h.clean x hx hb
    · rfl
  rw [Receiver.syncJob]
  split_ifs with hs
  · refine ⟨⟨h.awake, ?_, hp.lists_foreign, fun hf => Bool.noConfusion hf, h.skipping, h.counted,
      h.queued⟩, fun _ => hro⟩
    intro x hx _
    exact (hro x hx).trans (congrFun hp.rw_eq x).symm
  · exact ⟨h, fun hf => absurd hf hs⟩

theorem Receiver.Sound.drain (h : r.Sound d) : r.drain.Sound d := by
  have hempty : Receiver.Sound d { r with ring := [] } :=
    ⟨h.awake, h.clean, h.lists, h.deferring, h.skipping, h.counted,
      fun m hm => absurd hm List.not_mem_nil⟩
  exact hempty.handleAll (fun _ => false) r.ring h.queued

end

/-- A node with a remote area: the receiver, and the version in `areas_v`. -/
structure RemoteNode where
  r : Receiver
  areasV : ℕ

/-- `tasvir_sched_sync_internal` reports the version of the RO header. -/
def RemoteNode.report (d : AreaDesc) (s : RemoteNode) : RemoteNode :=
  { s with areasV := s.r.mem.ro (d.h+offVersion) }

inductive RemoteAct
  /-- the descriptor of the area arrives: `d->h` is known -/
  | learn
  /-- the node is up: `tasvir_is_booting` no longer holds -/
  | boot
  | recv (m : MemMsg) (late full : Bool)
  /-- a scheduled internal sync completes, or its barrier fails -/
  | sync (evs : List SyncEvent)
  | fail

def RemoteNode.next (d : AreaDesc) (s : RemoteNode) : RemoteAct → RemoteNode
  | .learn => { s with r := { s.r with hasHeader := true } }
  | .boot => { s with r := { s.r with booting := false } }
  | .recv m late full => { s with r := s.r.handleMsgMem late full m }
  | .sync evs => { s.report d with r := s.r.internalSync d evs }
  | .fail => s.report d

/-- No version has arrived, and no flag of the area is set. -/
structure RemoteNode.Fresh (d : AreaDesc) (s : RemoteNode) : Prop where
  flags : s.r.sleeping = false ∧ s.r.pending = false ∧ s.r.ignore = false ∧ s.r.enqueue = false
  ring : s.r.ring = []
  copies : ∀ x, d.Has (x/64) → s.r.mem.ro x = s.r.mem.rw x
  lists : ∀ t, Foreign d (s.r.mem.lists t).l

def remoteSystem (d : AreaDesc) : System RemoteNode RemoteAct where
  init := RemoteNode.Fresh d
  pre s a := match a with
    | .recv m _ _ => m.Wf
    | .sync evs => s.r.booting = false ∧ Completes d evs ∧ SmallChunks evs
    | .fail => s.r.booting = false
    | _ => True
  next := RemoteNode.next d

/-- Run lemma. -/
theorem sound_reachable {d : AreaDesc} (hd : d.Wf) {s : RemoteNode}
    (h : (remoteSystem d).Reachable s) : s.r.Sound d := by
  apply h.invariant (P := fun s => s.r.Sound d)
  · intro s h
    obtain ⟨h1, h2, h3, h4⟩ := h.flags
    refine ⟨h1, fun x hx _ => h.copies x hx, h.lists, ?_, fun _ => h2, ?_, ?_⟩
    · intro he
      rw [h4] at he
      exact Bool.noConfusion he
    · intro hp
      rw [h2] at hp
      exact Bool.noConfusion hp
    · rw [h.ring]
      exact fun m hm => absurd hm List.not_mem_nil
  · intro s a hs ha
    cases a with
    | learn => exact ⟨hs.awake, hs.clean, hs.lists, hs.deferring, hs.skipping, hs.counted, hs.queued⟩
    | boot => exact ⟨hs.awake, hs.clean, hs.lists, hs.deferring, hs.skipping, hs.counted, hs.queued⟩
    | recv m late full => exact hs.handle late full ha
    | sync evs => exact (hs.syncJob hd evs ha.2.1 ha.2.2).1.drain
    | fail => exact hs

end Tasvir
