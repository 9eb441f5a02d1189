import Mathlib.Tactic
import Tasvir.Retransmit

/-! The version a node reports for a remote area: what its RO copy holds when
`areas_v` is set, and from then on. -/
namespace Tasvir
open RunLength Machine

/-- What the owner has published: the copy at each version, and the lines that
version modified. -/
structure History (d : AreaDesc) where
  payload : ℕ → Mem
  modified : ℕ → ℕ → Prop
  version : ∀ v, payload v (d.h+offVersion) = v
  unchanged : ∀ v x, d.Tracked x → ¬modified (v+1) (x/64) → payload (v+1) x = payload v x

/-- The messages carry every line modified after version `a` up to version `v`. -/
def History.Since {d : AreaDesc} (H : History d) (a v : ℕ) (ms : List MemMsg) : Prop :=
  ∀ w, a < w → w ≤ v → ∀ l, H.modified w l → Covers (ms.map MemMsg.run) l

theorem History.payload_eq {d : AreaDesc} (H : History d) {u v : ℕ} (huv : u ≤ v) {x : ℕ}
    (hx : d.Tracked x) (h : ∀ w, u < w → w ≤ v → ¬H.modified w (x/64)) :
    H.payload u x = H.payload v x := by
  induction v, huv using Nat.le_induction with
  | base => rfl
  | succ v huv ih =>
    rw [ih (fun w h1 h2 => h w h1 (by omega)), H.unchanged v x hx (h (v+1) (by omega) le_rfl)]

/-- The emission a message belongs to is an emission of its version. -/
structure Labelled {d : AreaDesc} (H : History d) (E : MemMsg → List MemMsg) (m : MemMsg) :
    Prop where
  mem : m ∈ E m
  stream : Stream d m.version (H.payload m.version) 0 (E m)
  marked : Marked true (E m)
  wf : ∀ n ∈ E m, n.Wf

/-- A node with the emission it entered last. -/
structure ReportState where
  node : RemoteNode
  cur : List MemMsg

section
variable {d : AreaDesc} (H : History d) (E : MemMsg → List MemMsg)

def ReportState.handle (late full : Bool) (s : ReportState) (m : MemMsg) : ReportState :=
  { node := { s.node with r := s.node.r.handleMsgMem late full m }
    cur := if s.node.r.hasHeader = true ∧ s.node.r.enqueue = false ∧
      s.node.r.lastSyncExtV ≠ m.version then E m else s.cur }

/-- The deferred messages come after the copy. -/
def ReportState.sync (d : AreaDesc) (evs : List SyncEvent) (s : ReportState) : ReportState :=
  (s.node.r.syncJob d evs).ring.foldl (ReportState.handle E false false)
    ⟨{ s.node.report d with r := { s.node.r.syncJob d evs with ring := [] } }, s.cur⟩

def ReportState.next (d : AreaDesc) (s : ReportState) : RemoteAct → ReportState
  | .recv m late full => s.handle E late full m
  | .sync evs => s.sync E d evs
  | a => { s with node := s.node.next d a }

/-- The ghost part does not change what the node does. -/
theorem ReportState.next_node (s : ReportState) (a : RemoteAct) :
    (s.next E d a).node = s.node.next d a := by
  have hfold (ms : List MemMsg) (s : ReportState) :
      (ms.foldl (ReportState.handle E false false) s).node =
        { s.node with r := ms.foldl (Receiver.handleMsgMem false false) s.node.r } := by
    induction ms generalizing s with
    | nil => rfl
    | cons m ms ih => exact ih (s.handle E false false m)
  cases a with
  | sync evs => exact hfold _ _
  | _ => rfl

/-- Messages of published versions arrive in sending order. -/
def reportSystem : System ReportState RemoteAct where
  init s := s.node.Fresh d ∧ s.node.areasV = 0 ∧ s.node.r.lastSyncExtV = 0 ∧
    ∀ x, d.Tracked x → s.node.r.mem.ro x = H.payload 0 x
  pre s a := (remoteSystem d).pre s.node a ∧ match a with
    | .recv m _ _ => Labelled H E m ∧ s.node.r.lastSyncExtV ≤ m.version ∧
      ∀ n ∈ s.node.r.ring, n.version ≤ m.version
    | _ => True
  next := ReportState.next E d

/-- The condition on a handled message: there is room in the queue, a pending
version goes on with the next message of the same emission, and a version starts
with the first message of an emission that carries every line modified since the
reported version. -/
def ReportState.Conforms (full : Bool) (s : ReportState) (m : MemMsg) : Prop :=
  (s.node.r.enqueue = true → full = false) ∧
  (s.node.r.enqueue = false → s.node.r.lastSyncExtV = m.version → s.node.r.pending = true →
    m.prevBytes = s.node.r.lastSyncExtBytes ∧ E m = s.cur) ∧
  (s.node.r.enqueue = false → s.node.r.lastSyncExtV ≠ m.version →
    m.prevBytes = 0 ∧ H.Since s.node.areasV m.version (E m))

def ReportState.ConformsAll : ReportState → List MemMsg → Prop
  | _, [] => True
  | s, m :: ms => s.Conforms H E false m ∧ ConformsAll (s.handle E false false m) ms

/-- The same for deferred messages; and the node does not end its boot inside a
version. -/
def RemoteAct.Conforms (s : ReportState) : RemoteAct → Prop
  | .recv m _ full => s.Conforms H E full m
  | .sync evs => ReportState.ConformsAll H E
      ⟨{ s.node.report d with r := { s.node.r.syncJob d evs with ring := [] } }, s.cur⟩
      (s.node.r.syncJob d evs).ring
  | .boot => s.node.r.pending = false
  | _ => True

structure ReportInv (s : ReportState) : Prop where
  sound : s.node.r.Sound d
  ignore : s.node.r.ignore = false
  empty : s.node.r.enqueue = false → s.node.r.ring = []
  queued : ∀ m ∈ s.node.r.ring, Labelled H E m
  sorted : (s.node.r.lastSyncExtV :: s.node.r.ring.map MemMsg.version).Pairwise (· ≤ ·)
  /-- the RO copy is at one version, and no RW cell is older than that -/
  base : ∃ w, s.node.areasV ≤ w ∧ w ≤ s.node.r.lastSyncExtV ∧
    (∀ x, d.Tracked x → ∃ y, w ≤ y ∧ y ≤ s.node.r.lastSyncExtV ∧
      s.node.r.mem.rw x = H.payload y x) ∧
    ∀ x, d.Tracked x → s.node.r.mem.ro x =
      if s.node.r.booting then s.node.r.mem.rw x else H.payload w x
  idle : s.node.r.pending = false →
    ∀ x, d.Tracked x → s.node.r.mem.rw x = H.payload s.node.r.lastSyncExtV x
  busy : s.node.r.pending = true → ∃ part rest, s.cur = part ++ rest ∧
    s.node.r.lastSyncExtBytes = bytesOf part ∧
    H.Since s.node.areasV s.node.r.lastSyncExtV s.cur ∧
    ∀ x, d.Tracked x → Covers (part.map MemMsg.run) (x/64) →
      s.node.r.mem.rw x = H.payload s.node.r.lastSyncExtV x

end

section
variable {d : AreaDesc} {H : History d} {E : MemMsg → List MemMsg} {s : ReportState}

/-- A message in its place extends the version that is taken in, or completes it. -/
theorem ReportInv.accept (h : ReportInv H E s) (late : Bool) (m : MemMsg) (a : ℕ)
    (hm : Labelled H E m) (ha : m.addr = some a) (hh : s.node.r.hasHeader = true)
    (he : s.node.r.enqueue = false) (hin : s.node.r.InPlace m)
    (hle : s.node.r.lastSyncExtV ≤ m.version) (part rest : List MemMsg)
    (hall : part ++ m :: rest = E m) (hb : m.prevBytes = bytesOf part)
    (hcov : H.Since s.node.areasV m.version (E m))
    (hpart : ∀ x, d.Tracked x → Covers (part.map MemMsg.run) (x/64) →
      s.node.r.mem.rw x = H.payload m.version x) :
    ReportInv H E ⟨{ s.node with r := s.node.r.accept late m a }, E m⟩ := by
  have hstream := hm.stream
  have hmarked := hm.marked
  rw [← hall] at hstream hmarked
  have hlast := hmarked.last_iff
  have hfrag := hstream.split.2.1
  have hstore := storeLines_image hfrag ha
  have hrw := accept_rw hfrag ha s.node.r late
  obtain ⟨w, haw, hwv, hcells, hro⟩ := h.base
  have hsplit (l : ℕ) : Covers ((part ++ [m]).map MemMsg.run) l ↔
      Covers (part.map MemMsg.run) l ∨ Covers [m.run] l := by
    rw [List.map_append, covers_append]
    rfl
  -- the part that is there now has the version's lines
  have hdone : ∀ x, d.Tracked x → Covers ((part ++ [m]).map MemMsg.run) (x/64) →
      (s.node.r.accept late m a).mem.rw x = H.payload m.version x := by
    intro x hx hc
    rw [hrw]
    split_ifs with h1
    · rfl
    · exact hpart x hx (((hsplit _).mp hc).resolve_right h1)
  have hcells' : ∀ x, d.Tracked x → ∃ y, w ≤ y ∧ y ≤ m.version ∧
      (s.node.r.accept late m a).mem.rw x = H.payload y x := by
    intro x hx
    rw [hrw]
    split_ifs with h1
    · exact ⟨m.version, by omega, le_rfl, rfl⟩
    · obtain ⟨y, h2, h3, h4⟩ := hcells x hx
      exact ⟨y, h2, by omega, h4⟩
  refine ⟨?_, rfl, fun _ => h.empty he, h.queued, ?_, ⟨w, haw, by exact hwv.trans hle, hcells', ?_⟩,
    ?_, ?_⟩
  · have hsound := h.sound.handle late false (hm.wf m hm.mem)
    rwa [handle_accept late false _ m a hh he ha hin] at hsound
  · simp only [Receiver.accept, h.empty he, List.map_nil, List.pairwise_singleton]
  · intro x hx
    have hx' := hro x hx
    simp only [Receiver.accept, (NodeMem.receive_frame _ _ _ _).2.1,
      (NodeMem.receive_frame _ _ _ _).1]
    cases hboot : s.node.r.booting
    · simpa only [hboot, Bool.false_eq_true, ↓reduceIte] using hx'
    · rw [hboot] at hx'
      simp only [↓reduceIte, hstore] at hx' ⊢
      rw [hx']
  · -- nothing is pending: the emission is complete
    intro hp x hx
    have hl : m.last = true := by
      simpa only [Receiver.accept, Bool.not_eq_false'] using hp
    have hrest := hlast.mp hl
    subst hrest
    by_cases hc : Covers ((E m).map MemMsg.run) (x/64)
    · rw [← hall] at hc
      exact hdone x hx hc
    · obtain ⟨y, h1, h2, h3⟩ := hcells' x hx
      rw [h3]
      apply H.payload_eq h2 hx
      intro u hu1 hu2 hmod
      exact hc (hcov u (by omega) hu2 _ hmod)
  · intro _
    refine ⟨part ++ [m], rest, ?_, ?_, hcov, hdone⟩
    · simp only [List.append_assoc, List.singleton_append, hall]
    · simp only [Receiver.accept, hb, bytesOf_append]
      rfl

theorem ReportInv.handle (h : ReportInv H E s) (late full : Bool) (m : MemMsg)
    (hm : Labelled H E m) (hle : s.node.r.lastSyncExtV ≤ m.version)
    (hring : ∀ n ∈ s.node.r.ring, n.version ≤ m.version) (hok : s.Conforms H E full m) :
    ReportInv H E (s.handle E late full m) := by
  obtain ⟨hroom, hnext, hstart⟩ := hok
  obtain ⟨b, n, ha, -⟩ := hm.wf m hm.mem
  have hnil : Stream d m.version (H.payload m.version) 0 ([] ++ E m) := hm.stream
  unfold ReportState.handle
  rcases handle_cases late full s.node.r m (64*b) ha h.sound.skipping with ⟨hh, heq⟩ |
    ⟨hh, he, hf, heq⟩ | ⟨hh, he, hf, heq⟩ | ⟨hh, he, hv, hp, heq⟩ | ⟨hh, he, hin, heq⟩ |
    ⟨hh, he, hin, hv, heq⟩
  · rw [heq, if_neg (fun hc => by rw [hh] at hc; exact Bool.noConfusion hc.1)]
    exact h
  · rw [heq, if_neg (fun hc => by rw [he] at hc; exact Bool.noConfusion hc.2.1)]
    refine ⟨?_, h.ignore, ?_, ?_, ?_, h.base, h.idle, h.busy⟩
    · have hsound := h.sound.handle late full (hm.wf m hm.mem)
      rwa [heq] at hsound
    · intro hf'
      rw [he] at hf'
      exact Bool.noConfusion hf'
    · intro n' hn'
      rcases List.mem_append.mp hn' with hn' | hn'
      · exact h.queued n' hn'
      · rw [List.mem_singleton.mp hn']
        exact hm
    · simp only [List.map_append, List.map_cons, List.map_nil]
      rw [← List.cons_append]
      refine List.pairwise_append.mpr ⟨h.sorted, List.pairwise_singleton _ _, ?_⟩
      intro u hu v' hv'
      rw [List.mem_singleton.mp hv']
      rcases List.mem_cons.mp hu with hu | hu
      · rw [hu]
        exact hle
      · obtain ⟨n', hn', rfl⟩ := List.mem_map.mp hu
        exact hring n' hn'
  · exact absurd (hroom he) (by rw [hf]; exact Bool.noConfusion)
  · rw [heq, if_neg (fun hc => hc.2.2 hv)]
    exact h
  · rw [heq]
    by_cases hv : s.node.r.lastSyncExtV = m.version
    · -- the pending version goes on
      have hp : s.node.r.pending = true := by
        rcases hin with ⟨hne, -⟩ | ⟨-, hp, -⟩
        · exact absurd hv hne
        · exact hp
      obtain ⟨hbytes, hcur⟩ := hnext he hv hp
      obtain ⟨part, rest, hsplit, hb, hcov, hpart⟩ := h.busy hp
      rw [← hcur] at hsplit hcov
      obtain ⟨rest', hrest⟩ := Stream.next (by rw [← hsplit]; exact hm.stream)
        (by rw [← hsplit]; exact hm.mem) (hbytes.trans hb)
      rw [if_neg (fun hc => hc.2.2 hv), ← hcur]
      rw [hv] at hcov hpart
      exact h.accept late m (64*b) hm ha hh he hin hle part rest' (by rw [hsplit, hrest])
        (hbytes.trans hb) hcov hpart
    · obtain ⟨hzero, hcov⟩ := hstart he hv
      obtain ⟨rest', hrest⟩ := hnil.next hm.mem hzero
      rw [if_pos ⟨hh, he, hv⟩]
      exact h.accept late m (64*b) hm ha hh he hin hle [] rest' hrest.symm hzero hcov
        (fun x _ hc => absurd hc (covers_nil _))
  · -- out of place: excluded by the byte counts
    exfalso
    by_cases hv' : s.node.r.lastSyncExtV = m.version
    · exact hin (Or.inr ⟨hv', hv hv', h.ignore, (hnext he hv' (hv hv')).1.symm⟩)
    · exact hin (Or.inl ⟨hv', (hstart he hv').1⟩)

theorem handle_order (late full : Bool) {r : Receiver} (hr : r.Sound d) {m : MemMsg} (hm : m.Wf) :
    ((r.handleMsgMem late full m).lastSyncExtV = r.lastSyncExtV ∨
      (r.handleMsgMem late full m).lastSyncExtV = m.version) ∧
    ∀ n ∈ (r.handleMsgMem late full m).ring, n ∈ r.ring ∨ n = m := by
  obtain ⟨b, n, ha, -⟩ := hm
  rcases handle_cases late full r m (64*b) ha hr.skipping with ⟨-, heq⟩ | ⟨-, -, -, heq⟩ |
    ⟨-, -, -, heq⟩ | ⟨-, -, -, -, heq⟩ | ⟨-, -, -, heq⟩ | ⟨-, -, -, -, heq⟩
  · rw [heq]
    exact ⟨Or.inl rfl, fun _ hn => Or.inl hn⟩
  · rw [heq]
    refine ⟨Or.inl rfl, fun n hn => ?_⟩
    rwa [List.mem_append, List.mem_singleton] at hn
  · rw [heq]
    exact ⟨Or.inl rfl, fun _ hn => Or.inl hn⟩
  · rw [heq]
    exact ⟨Or.inl rfl, fun _ hn => Or.inl hn⟩
  · rw [heq]
    exact ⟨Or.inr rfl, fun _ hn => Or.inl hn⟩
  · rw [heq]
    exact ⟨Or.inr rfl, fun _ hn => Or.inl hn⟩

/-- Run lemma for the deferred messages, which are in sending order too. -/
theorem ReportInv.handleAll (h : ReportInv H E s) (ms : List MemMsg)
    (hms : ∀ m ∈ ms, Labelled H E m)
    (hsorted : (s.node.r.lastSyncExtV :: ms.map MemMsg.version).Pairwise (· ≤ ·))
    (hring : ∀ n ∈ s.node.r.ring, ∀ m ∈ ms, n.version ≤ m.version)
    (hok : ReportState.ConformsAll H E s ms) :
    ReportInv H E (ms.foldl (ReportState.handle E false false) s) := by
  induction ms generalizing s with
  | nil => exact h
  | cons m ms ih =>
    have hm := hms m List.mem_cons_self
    rw [List.map_cons, List.pairwise_cons, List.pairwise_cons] at hsorted
    obtain ⟨hle, hnext, htail⟩ := hsorted
    obtain ⟨hv, hq⟩ := handle_order false false h.sound (hm.wf m hm.mem)
    refine ih (h.handle false false m hm (hle _ List.mem_cons_self)
      (fun n hn => hring n hn m List.mem_cons_self) hok.1)
      (fun n hn => hms n (List.mem_cons_of_mem _ hn)) ?_ ?_ hok.2
    · refine List.pairwise_cons.mpr ⟨fun u hu => ?_, htail⟩
      simp only [ReportState.handle]
      rcases hv with hv | hv
      · rw [hv]
        exact hle u (List.mem_cons_of_mem _ hu)
      · rw [hv]
        exact hnext u hu
    · intro n hn m' hm'
      rcases hq n hn with hn | hn
      · exact hring n hn m' (List.mem_cons_of_mem _ hm')
      · rw [hn]
        exact hnext _ (List.mem_map_of_mem hm')

/-- The version that is reported is the one the RO copy is at. -/
theorem ReportInv.report (h : ReportInv H E s) (hb : s.node.r.booting = false) :
    ReportInv H E ⟨s.node.report d, s.cur⟩ ∧ s.node.areasV ≤ (s.node.report d).areasV ∧
    ∀ x, d.Tracked x → s.node.r.mem.ro x = H.payload (s.node.report d).areasV x := by
  obtain ⟨w, haw, hwv, hcells, hro⟩ := h.base
  rw [hb] at hro
  have hw : (s.node.report d).areasV = w := by
    have hver := hro (d.h+offVersion) (Or.inr rfl)
    rw [RemoteNode.report, hver]
    exact H.version w
  refine ⟨⟨h.sound, h.ignore, h.empty, h.queued, h.sorted, ⟨w, hw.le, hwv, hcells, ?_⟩, h.idle, ?_⟩,
    ?_, ?_⟩
  · rw [show (s.node.report d).r = s.node.r from rfl, hb]
    exact hro
  · intro hp
    obtain ⟨part, rest, h1, h2, h3, h4⟩ := h.busy hp
    refine ⟨part, rest, h1, h2, ?_, h4⟩
    intro u hu
    exact h3 u (by rw [hw] at hu; omega)
  · rw [hw]
    exact haw
  · rw [hw]
    exact hro

/-- A sync that includes the area makes the RO copy the version taken in last. -/
theorem ReportInv.syncJob (hd : d.Wf) (hpos : 0 < d.offsetLogEnd) (h : ReportInv H E s)
    (hb : s.node.r.booting = false) (evs : List SyncEvent) (hev : Completes d evs)
    (hsize : SmallChunks evs) :
    ReportInv H E ⟨{ s.node with r := { s.node.r.syncJob d evs with ring := [] } }, s.cur⟩ := by
  obtain ⟨hsound, hcopy⟩ := h.sound.syncJob hd evs hev hsize
  have hsound' : Receiver.Sound d { s.node.r.syncJob d evs with ring := [] } :=
    ⟨hsound.awake, hsound.clean, hsound.lists, hsound.deferring, hsound.skipping, hsound.counted,
      fun m hm => absurd hm List.not_mem_nil⟩
  have hrw := rw_events d false evs s.node.r.mem
  obtain ⟨w, haw, hwv, hcells, hro⟩ := h.base
  by_cases hs : s.node.r.scheduled = true
  · have heq : s.node.r.syncJob d evs =
        { s.node.r with mem := syncEvents d false s.node.r.mem evs, enqueue := false } := if_pos hs
    have hp : s.node.r.pending = false := by
      simp only [Receiver.scheduled, Bool.and_eq_true, Bool.not_eq_true',
        Bool.or_eq_false_iff] at hs
      exact hs.2.1
    have hidle := h.idle hp
    rw [heq] at hsound' hcopy ⊢
    have hrw' (x : ℕ) : (syncEvents d false s.node.r.mem evs).rw x = s.node.r.mem.rw x := by
      rw [hrw]
    refine ⟨hsound', h.ignore, fun _ => rfl, fun m hm => absurd hm List.not_mem_nil,
      List.pairwise_singleton _ _, ⟨s.node.r.lastSyncExtV, haw.trans hwv, le_rfl, ?_, ?_⟩, ?_, ?_⟩
    · intro x hx
      exact ⟨s.node.r.lastSyncExtV, le_rfl, le_rfl, (hrw' x).trans (hidle x hx)⟩
    · intro x hx
      simp only [hb, Bool.false_eq_true, ↓reduceIte]
      rw [hcopy hs x (hx.has hd hpos), hidle x hx]
    · intro _ x hx
      exact (hrw' x).trans (hidle x hx)
    · intro hf
      exact absurd hf (by simp only [hp, Bool.false_eq_true, not_false_eq_true])
  · have heq : s.node.r.syncJob d evs = s.node.r := if_neg hs
    rw [heq] at hsound' ⊢
    exact ⟨hsound', h.ignore, fun _ => rfl, fun m hm => absurd hm List.not_mem_nil,
      List.pairwise_singleton _ _, h.base, h.idle, h.busy⟩

theorem ReportInv.sync (hd : d.Wf) (hpos : 0 < d.offsetLogEnd) (h : ReportInv H E s)
    (hb : s.node.r.booting = false) (evs : List SyncEvent) (hev : Completes d evs)
    (hsize : SmallChunks evs) (hok : (RemoteAct.sync evs).Conforms H E s) :
    ReportInv H E (s.sync E d evs) := by
  have hsync := (h.report hb).1.syncJob hd hpos hb evs hev hsize
  have hkeep : (s.node.r.syncJob d evs).ring = s.node.r.ring ∧
      (s.node.r.syncJob d evs).lastSyncExtV = s.node.r.lastSyncExtV := by
    rw [Receiver.syncJob]
    split_ifs <;> exact ⟨rfl, rfl⟩
  refine hsync.handleAll _ ?_ ?_ ?_ hok
  · rw [hkeep.1]
    exact h.queued
  · rw [hkeep.1]
    simp only [RemoteNode.report, hkeep.2]
    exact h.sorted
  · exact fun n hn => absurd hn List.not_mem_nil

theorem reportInv_reachable (hd : d.Wf) (hpos : 0 < d.offsetLogEnd)
    (h : ((reportSystem H E).restrict (fun s a => a.Conforms H E s)).Reachable s) :
    ReportInv H E s := by
  apply h.invariant
  · rintro s ⟨hf, hzero, hv, hro⟩
    obtain ⟨h1, h2, h3, h4⟩ := hf.flags
    have hrw : ∀ x, d.Tracked x → s.node.r.mem.rw x = H.payload 0 x := by
      intro x hx
      rw [← hf.copies x (hx.has hd hpos), hro x hx]
    refine ⟨?_, h3, fun _ => hf.ring, ?_, ?_, ⟨0, by omega, by omega, ?_, ?_⟩, ?_, ?_⟩
    · exact sound_reachable hd (.init hf)
    · rw [hf.ring]
      exact fun m hm => absurd hm List.not_mem_nil
    · rw [hf.ring]
      exact List.pairwise_singleton _ _
    · intro x hx
      exact ⟨0, le_rfl, by omega, hrw x hx⟩
    · intro x hx
      rw [hrw x hx, hro x hx, ite_self]
    · intro _ x hx
      rw [hv, hrw x hx]
    · intro hp
      rw [h2] at hp
      exact Bool.noConfusion hp
  · rintro s a hs ⟨⟨hpre, hlab⟩, hok⟩
    cases a with
    | learn =>
      have hsound := hs.sound
      exact ⟨⟨hsound.awake, hsound.clean, hsound.lists, hsound.deferring, hsound.skipping,
        hsound.counted, hsound.queued⟩, hs.ignore, hs.empty, hs.queued, hs.sorted, hs.base, hs.idle,
        hs.busy⟩
    | boot =>
      have hsound := hs.sound
      obtain ⟨w, haw, hwv, hcells, hro⟩ := hs.base
      refine ⟨⟨hsound.awake, hsound.clean, hsound.lists, hsound.deferring, hsound.skipping,
        hsound.counted, hsound.queued⟩, hs.ignore, hs.empty, hs.queued, hs.sorted, ?_, hs.idle,
        hs.busy⟩
      cases hb : s.node.r.booting
      · rw [hb] at hro
        exact ⟨w, haw, hwv, hcells, hro⟩
      · -- all that came in during the boot is in both copies
        rw [hb] at hro
        have hidle := hs.idle hok
        refine ⟨s.node.r.lastSyncExtV, haw.trans hwv, le_rfl, ?_, ?_⟩
        · intro x hx
          exact ⟨s.node.r.lastSyncExtV, le_rfl, le_rfl, hidle x hx⟩
        · intro x hx
          exact (hro x hx).trans (hidle x hx)
    | recv m late full => exact hs.handle late full m hlab.1 hlab.2.1 hlab.2.2 hok
    | sync evs => exact hs.sync hd hpos hpre.1 evs hpre.2.1 hpre.2.2 hok
    | fail => exact (hs.report hpre).1

end

/-- The version a node reports: in every run in which messages are taken in as
they were sent, the RO copy is at the version of its header, which is the one
reported at the next scheduling and not below the one reported now; so no line of
a reported version is missing. -/
theorem reported_version_complete (d : AreaDesc) (hd : d.Wf) (hpos : 0 < d.offsetLogEnd)
    (H : History d) (E : MemMsg → List MemMsg) (s : ReportState)
    (h : ((reportSystem H E).restrict (fun s a => a.Conforms H E s)).Reachable s)
    (hb : s.node.r.booting = false) :
    s.node.areasV ≤ (s.node.report d).areasV ∧
    ∀ x, d.Payload x → s.node.r.mem.ro x = H.payload (s.node.report d).areasV x := by
  obtain ⟨-, hle, hro⟩ := (reportInv_reachable hd hpos h).report hb
  exact ⟨hle, fun x hx => hro x (Or.inl hx)⟩

section
variable {d : AreaDesc} (hd : d.Wf) (hpos : 0 < d.offsetLogEnd)
variable {H : History d} {E : MemMsg → List MemMsg} {s : ReportState}
variable (h : ((reportSystem H E).restrict (fun s a => a.Conforms H E s)).Reachable s)
include hd hpos h

/-- The step for a message in its place. -/
theorem reachable_accept {m : MemMsg} {a : ℕ} (hm : Labelled H E m) (ha : m.addr = some a)
    (hh : s.node.r.hasHeader = true) (he : s.node.r.enqueue = false)
    (hle : s.node.r.lastSyncExtV ≤ m.version) (hin : s.node.r.InPlace m)
    (hcur : s.node.r.lastSyncExtV = m.version → E m = s.cur)
    (hcov : H.Since s.node.areasV m.version (E m)) :
    ((reportSystem H E).restrict (fun s a => a.Conforms H E s)).Reachable
      ⟨{ s.node with r := s.node.r.accept false m a }, E m⟩ := by
  have hring := (reportInv_reachable hd hpos h).empty he
  have hbytes : s.node.r.lastSyncExtV = m.version → m.prevBytes = s.node.r.lastSyncExtBytes := by
    intro hv
    rcases hin with ⟨hne, -⟩ | ⟨-, -, -, hb⟩
    · exact absurd hv hne
    · exact hb.symm
  have hzero : s.node.r.lastSyncExtV ≠ m.version → m.prevBytes = 0 := by
    intro hv
    rcases hin with ⟨-, hb⟩ | ⟨hv', -⟩
    · exact hb
    · exact absurd hv' hv
  have hstep := h.step (a := RemoteAct.recv m false false)
    ⟨⟨hm.wf m hm.mem, hm, hle, fun n hn => absurd (hring ▸ hn) List.not_mem_nil⟩,
      fun _ => rfl, fun _ hv _ => ⟨hbytes hv, hcur hv⟩, fun _ hv => ⟨hzero hv, hcov⟩⟩
  have hnext : s.next E d (.recv m false false) =
      ⟨{ s.node with r := s.node.r.accept false m a }, E m⟩ := by
    rw [ReportState.next, ReportState.handle, handle_accept false false _ m a hh he ha hin]
    split_ifs with hc
    · rfl
    · rw [hcur (by_contra fun hv => hc ⟨hh, he, hv⟩)]
  rw [← hnext]
  exact hstep

/-- The step for a sync that includes the area, with nothing deferred. -/
theorem reachable_sync (hb : s.node.r.booting = false) (he : s.node.r.enqueue = false)
    (hs : s.node.r.scheduled = true) (evs : List SyncEvent) (hev : Completes d evs)
    (hsize : SmallChunks evs) :
    ((reportSystem H E).restrict (fun s a => a.Conforms H E s)).Reachable
      ⟨{ s.node.report d with
          r := { s.node.r with mem := syncEvents d false s.node.r.mem evs, enqueue := false } },
        s.cur⟩ ∧
    ∀ x, d.Tracked x → (syncEvents d false s.node.r.mem evs).ro x =
      H.payload s.node.r.lastSyncExtV x := by
  have hinv := reportInv_reachable hd hpos h
  have hring := hinv.empty he
  have hjob : s.node.r.syncJob d evs =
      { s.node.r with mem := syncEvents d false s.node.r.mem evs, enqueue := false } := if_pos hs
  have hq : (s.node.r.syncJob d evs).ring = [] := by
    rw [hjob]
    exact hring
  have hstep := h.step (a := RemoteAct.sync evs) ⟨⟨⟨hb, hev, hsize⟩, trivial⟩, by
    simp only [RemoteAct.Conforms]
    rw [hq]
    trivial⟩
  have hnext : s.next E d (.sync evs) = ⟨{ s.node.report d with
      r := { s.node.r with mem := syncEvents d false s.node.r.mem evs, enqueue := false } },
      s.cur⟩ := by
    simp only [ReportState.next, ReportState.sync, hq, List.foldl_nil]
    rw [hjob, ← hring]
  have hp : s.node.r.pending = false := by
    simp only [Receiver.scheduled, Bool.and_eq_true, Bool.not_eq_true', Bool.or_eq_false_iff] at hs
    exact hs.2.1
  refine ⟨?_, ?_⟩
  · rw [← hnext]
    exact hstep
  · intro x hx
    have hcopy := (hinv.sound.syncJob hd evs hev hsize).2 hs x (hx.has hd hpos)
    rw [hjob] at hcopy
    exact hcopy.trans (hinv.idle hp x hx)

end

/-- Each version writes its number to the line of the version and one payload line. -/
def pairImage (v : ℕ) : Mem := fun x => if x/64 = 513 ∨ x/64 = 533 then v else 0

def pairHistory : History ⟨32768, 32768, false⟩ where
  payload := pairImage
  modified _ l := l = 513 ∨ l = 533
  version _ := rfl
  unchanged v x _ h := by rw [pairImage, pairImage, if_neg h, if_neg h]

def pairMsg (v k l : ℕ) : MemMsg :=
  { id := k, d := ⟨32768, 32768, false⟩, version := v, addr := some (64*l), len := 64
    last := l == 533, prevBytes := 64*k, line := fun j => pairImage v (64*l+j) }

def pairMsgs (m : MemMsg) : List MemMsg := [pairMsg m.version 0 513, pairMsg m.version 1 533]

theorem pairMsgs_labelled (v k l : ℕ) (h : pairMsg v k l ∈ pairMsgs (pairMsg v k l)) :
    Labelled pairHistory pairMsgs (pairMsg v k l) := by
  have hfrag (k l : ℕ) :
      (pairMsg v k l).Fragment ⟨32768, 32768, false⟩ v (pairImage v) (64*k) :=
    ⟨rfl, rfl, rfl, l, 1, rfl, rfl, by norm_num, fun _ => rfl⟩
  refine ⟨h, ⟨hfrag 0 513, hfrag 1 533, trivial⟩, ⟨[pairMsg v 0 513], pairMsg v 1 533, rfl, ?_, rfl⟩,
    ?_⟩
  · intro m hm
    rw [List.mem_singleton.mp hm]
    rfl
  · intro m hm
    simp only [pairMsgs, List.mem_cons, List.not_mem_nil, or_false] at hm
    rcases hm with rfl | rfl
    · exact ⟨513, 1, rfl, rfl, by norm_num, by norm_num⟩
    · exact ⟨533, 1, rfl, rfl, by norm_num, by norm_num⟩

theorem pairMsg_run (v k l : ℕ) : (pairMsg v k l).run = (l, 1) := MemMsg.Wf.run rfl rfl

theorem pairMsgs_since (a v : ℕ) (m : MemMsg) : pairHistory.Since a v (pairMsgs m) := by
  rintro w - - l hl
  simp only [pairMsgs, List.map_cons, List.map_nil, pairMsg_run]
  rcases hl with hl | hl
  · exact ⟨(513, 1), List.mem_cons_self, by omega, by omega⟩
  · exact ⟨(533, 1), List.mem_cons_of_mem _ List.mem_cons_self, by omega, by omega⟩

/-- A node in such a run that is ready for version `v+1`. -/
structure PairReady (v : ℕ) (s : ReportState) : Prop where
  reach : ((reportSystem pairHistory pairMsgs).restrict
    (fun s a => a.Conforms pairHistory pairMsgs s)).Reachable s
  attached : s.node.r.hasHeader = true
  up : s.node.r.booting = false
  direct : s.node.r.enqueue = false
  seen : s.node.r.lastSyncExtV = v

/-- The next version arrives in full and a sync publishes it; `areas_v` is set
before that. -/
theorem PairReady.round {v : ℕ} {s : ReportState} (h : PairReady v s) :
    ∃ s', PairReady (v+1) s' ∧ s'.node.areasV = s.node.r.mem.ro (32768+offVersion) ∧
      ∀ x, (⟨32768, 32768, false⟩ : AreaDesc).Tracked x →
        s'.node.r.mem.ro x = pairImage (v+1) x := by
  have hd : (⟨32768, 32768, false⟩ : AreaDesc).Wf :=
    ⟨by norm_num, by norm_num, by norm_num, by norm_num⟩
  have hpos : 0 < (⟨32768, 32768, false⟩ : AreaDesc).offsetLogEnd := by norm_num
  have hev := completes_whole ⟨32768, 32768, false⟩ hd hpos
  obtain ⟨hreach, hh, hup, he, hv⟩ := h
  have hl1 := pairMsgs_labelled (v+1) 0 513 List.mem_cons_self
  have hl2 := pairMsgs_labelled (v+1) 1 533 (List.mem_cons_of_mem _ List.mem_cons_self)
  have hne : s.node.r.lastSyncExtV ≠ v+1 := by omega
  have hr1 := reachable_accept hd hpos hreach (a := 64*513) hl1 rfl hh he
    (hv.le.trans (Nat.le_succ v)) (Or.inl ⟨hne, rfl⟩) (fun hf => absurd hf hne)
    (pairMsgs_since _ _ _)
  have hr2 := reachable_accept hd hpos hr1 (a := 64*533) hl2 rfl hh rfl le_rfl
    (Or.inr ⟨rfl, rfl, rfl, rfl⟩) (fun _ => rfl) (pairMsgs_since _ _ _)
  have hawake := (reportInv_reachable hd hpos hreach).sound.awake
  have hlast : (pairMsg (v+1) 1 533).last = true := rfl
  obtain ⟨hr3, hro⟩ := reachable_sync hd hpos hr2 hup
    (by simp only [Receiver.accept, Bool.and_false])
    (by simp only [Receiver.scheduled, Receiver.accept, hh, hawake, hlast, Bool.or_true,
      Bool.not_true, Bool.or_self, Bool.not_false, Bool.and_self])
    _ hev (hev.smallChunks (by norm_num))
  refine ⟨_, ⟨hr3, hh, hup, rfl, rfl⟩, ?_, hro⟩
  -- messages leave the RO copy alone
  simp only [RemoteNode.report, Receiver.accept, (NodeMem.receive_frame _ _ _ _).2.1, hup,
    Bool.false_eq_true, ↓reduceIte]

theorem pairReady_zero : PairReady 0 ⟨newRemote true, []⟩ :=
  ⟨.init ⟨newRemote_fresh _ _, rfl, rfl, fun _ _ => (ite_self 0).symm⟩, rfl, rfl, rfl, rfl⟩

/-- Two versions without any loss: after the second sync the node reports version
1, and its RO payload is that of version 2. -/
theorem reported_version_lags :
    ∃ s, (reportSystem pairHistory pairMsgs).Reachable s ∧ s.node.r.booting = false ∧
      s.node.areasV = 1 ∧ (⟨32768, 32768, false⟩ : AreaDesc).Payload (64*533) ∧
      s.node.r.mem.ro (64*533) ≠ pairHistory.payload s.node.areasV (64*533) := by
  obtain ⟨s₁, h1, -, hro1⟩ := pairReady_zero.round
  obtain ⟨s₂, h2, hrep, hro2⟩ := h1.round
  have hpay : (⟨32768, 32768, false⟩ : AreaDesc).Payload (64*533) :=
    ⟨by norm_num [sizeofHeader], by norm_num⟩
  have hone : s₂.node.areasV = 1 := hrep.trans (hro1 _ (Or.inr rfl))
  refine ⟨s₂, h2.reach.of_restrict, h2.up, hone, hpay, ?_⟩
  rw [hro2 _ (Or.inl hpay), hone]
  decide

/-- In the same run the RO payload is complete at the version of its header. -/
theorem reported_version_complete_pair :
    ∃ s, ((reportSystem pairHistory pairMsgs).restrict
        (fun s a => a.Conforms pairHistory pairMsgs s)).Reachable s ∧ s.node.areasV = 1 ∧
      s.node.areasV ≤ (s.node.report ⟨32768, 32768, false⟩).areasV ∧
      ∀ x, (⟨32768, 32768, false⟩ : AreaDesc).Payload x → s.node.r.mem.ro x =
        pairHistory.payload (s.node.report ⟨32768, 32768, false⟩).areasV x := by
  obtain ⟨s₁, h1, -, hro1⟩ := pairReady_zero.round
  obtain ⟨s₂, h2, hrep, -⟩ := h1.round
  exact ⟨s₂, h2.reach, hrep.trans (hro1 _ (Or.inr rfl)), reported_version_complete _
    ⟨by norm_num, by norm_num, by norm_num, by norm_num⟩ (by norm_num) _ _ s₂ h2.reach h2.up⟩

end Tasvir
