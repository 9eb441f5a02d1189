import Mathlib.Tactic
import Tasvir.LongRun
import Tasvir.Machine
import Tasvir.RemoteArea
import Tasvir.Sender

/-! The version numbers of an area whose owner never changes: on the owner's
node, on every other node, in memory messages that may get lost, and in RPCs. -/
namespace Tasvir
open RunLength Machine

/-- `history` lists the publications with their copies, `requests` the versions
that requests of threads other than the owner were sent with, and `aborted`
tells that the owner has met its own version in such a request. -/
structure VersionState where
  owner : OwnerNode
  remotes : ℕ → RemoteNode
  history : List (ℕ × Mem) := []
  requests : List ℕ := []
  responses : List ℕ := []
  aborted : Bool := false

inductive VersionAct
  /-- the owner writes and logs, inside an RPC function or not -/
  | update (ops : List OwnerOp)
  | internal (evs : List SyncEvent) (timeUs : ℕ)
  | external (e : ExtCall)
  | rotate (timeUs : ℕ)
  /-- a step of node `n`, which is not the owner's -/
  | remote (n : ℕ) (a : RemoteAct)
  /-- a thread of the owner's node, or of node `n`, calls `tasvir_vrpc` -/
  | request (node : Option ℕ)
  /-- the end of `tasvir_handle_msg_rpc_request`, for a request sent with `version` -/
  | respond (version : ℕ)

namespace VersionState

/-- The version of the RW header on the owner's node. -/
def current (d : AreaDesc) (s : VersionState) : ℕ := s.owner.mem.rw (d.h+offVersion)

/-- What `d->h->version` is for a thread that maps the area to its RO copy; zero
where `d->h` is not known. -/
def viewVersion (d : AreaDesc) (s : VersionState) : Option ℕ → ℕ
  | none => s.owner.mem.ro (d.h+offVersion)
  | some n => if (s.remotes n).r.hasHeader then (s.remotes n).r.mem.ro (d.h+offVersion) else 0

/-- Messages of the owner may be lost, repeated and reordered; those that arrive
were sent. The store of the root descriptor needs room in the daemon's list. -/
def pre (d : AreaDesc) (s : VersionState) : VersionAct → Prop
  | .update ops => ∀ op ∈ ops, op.Valid d
  | .internal evs _ => Completes d evs
  | .external e => e.d = d ∧ (d.isRoot = true → (s.owner.mem.lists 0).l.length < syncListLen)
  | .rotate _ => True
  | .remote n a => match a with
    | .recv m _ _ => m ∈ s.owner.tx.ring
    | .sync evs => (s.remotes n).r.booting = false ∧ Completes d evs
    | .fail => (s.remotes n).r.booting = false
    | _ => True
  | .request _ => True
  | .respond version => version ∈ s.requests

def next (d : AreaDesc) (s : VersionState) : VersionAct → VersionState
  | .update ops => { s with owner := { s.owner with mem := s.owner.mem.ops d ops } }
  | .internal evs timeUs =>
    let owner := s.owner.internal d evs timeUs
    { s with
      owner
      history := if hasChanges (syncUpdated d true s.owner.mem evs) then
        s.history ++ [(owner.mem.ro (d.h+offVersion), owner.mem.ro)] else s.history }
  | .external e => { s with owner := s.owner.external e }
  | .rotate timeUs => { s with owner := s.owner.rotate d timeUs }
  | .remote n a => { s with remotes := Function.update s.remotes n ((s.remotes n).next d a) }
  | .request node => { s with requests := s.viewVersion d node :: s.requests }
  | .respond version =>
    if version = s.current d then { s with aborted := true }
    else { s with responses := s.current d :: s.responses }

/-- The area right after `tasvir_new`, unknown to all other nodes. -/
structure Fresh (d : AreaDesc) (s : VersionState) : Prop where
  lists : ∀ t, (s.owner.mem.lists t).l = [] ∧ (s.owner.mem.lists t).changed = 0
  versions : s.owner.mem.ro (d.h+offVersion) = 0 ∧ s.owner.mem.rw (d.h+offVersion) = 1 ∧
    (s.owner.info 0).versionEnd = 0
  ring : s.owner.tx.ring = []
  remotes : ∀ n, (s.remotes n).Fresh d ∧ (s.remotes n).r.mem.rw (d.h+offVersion) = 0
  record : s.history = [] ∧ s.requests = [] ∧ s.aborted = false

end VersionState

def versionSystem (d : AreaDesc) : System VersionState VersionAct where
  init := VersionState.Fresh d
  pre := VersionState.pre d
  next := VersionState.next d

/-- The message writes at most `v` to the version of the area. -/
def MemMsg.VersionLe (d : AreaDesc) (v : ℕ) (m : MemMsg) : Prop :=
  ∀ a, m.addr = some a → a ≤ d.h+offVersion → m.line (d.h+offVersion-a) ≤ v

/-- No copy of the version on the node, and no message it has deferred, is above `v`. -/
structure Receiver.VersionLe (d : AreaDesc) (v : ℕ) (r : Receiver) : Prop where
  rw : r.mem.rw (d.h+offVersion) ≤ v
  ro : r.mem.ro (d.h+offVersion) ≤ v
  ring : ∀ m ∈ r.ring, m.VersionLe d v

section
variable {d : AreaDesc} {v : ℕ} {r : Receiver}

theorem MemMsg.VersionLe.mono {m : MemMsg} (h : m.VersionLe d v) {v' : ℕ} (hle : v ≤ v') :
    m.VersionLe d v' := fun a ha hle' => (h a ha hle').trans hle

theorem Receiver.VersionLe.mono (h : r.VersionLe d v) {v' : ℕ} (hle : v ≤ v') :
    r.VersionLe d v' :=
  ⟨h.rw.trans hle, h.ro.trans hle, fun m hm => (h.ring m hm).mono hle⟩

theorem MemMsg.Fragment.versionLe {m : MemMsg} {w prev : ℕ} {img : Mem}
    (h : m.Fragment d w img prev) (hv : img (d.h+offVersion) ≤ v) : m.VersionLe d v := by
  intro a ha hle
  obtain ⟨b, n, hb, -, -, hline⟩ := h.lines
  rw [hb] at ha
  have hab := Option.some.inj ha
  subst hab
  rw [hline, Nat.add_sub_of_le hle]
  exact hv

theorem storeLines_version {m : MemMsg} (hm : m.Wf) (hv : m.VersionLe d v) {a : ℕ}
    (ha : m.addr = some a) {dst : Mem} (hdst : dst (d.h+offVersion) ≤ v) :
    storeLines dst m a (d.h+offVersion) ≤ v := by
  obtain ⟨b, n, hb, hn, hpos, -⟩ := hm
  rw [hb] at ha
  have hab := Option.some.inj ha
  subst hab
  rw [storeLines, hn, storeVecRep_lines _ _ _ _ _ hpos]
  split_ifs with hin
  · exact hv _ hb hin.1
  · exact hdst

theorem Receiver.VersionLe.receive (h : r.VersionLe d v) {m : MemMsg} (hm : m.Wf)
    (hv : m.VersionLe d v) {a : ℕ} (ha : m.addr = some a) :
    (r.mem.receive r.booting m a).rw (d.h+offVersion) ≤ v ∧
    (r.mem.receive r.booting m a).ro (d.h+offVersion) ≤ v := by
  obtain ⟨hrw, hro, -, -⟩ := r.mem.receive_frame r.booting m a
  rw [hrw, hro]
  refine ⟨storeLines_version hm hv ha h.rw, ?_⟩
  split_ifs
  · exact storeLines_version hm hv ha h.ro
  · exact h.ro

theorem Receiver.VersionLe.handle (h : r.VersionLe d v) (hs : r.Sound d) (late full : Bool)
    {m : MemMsg} (hm : m.Wf) (hv : m.VersionLe d v) :
    (r.handleMsgMem late full m).VersionLe d v := by
  have hwf := hm
  obtain ⟨b, n, hb, -⟩ := hm
  obtain ⟨hrw, hro⟩ := h.receive hwf hv hb
  rcases handle_cases late full r m (64*b) hb hs.skipping with ⟨-, heq⟩ | ⟨-, -, -, heq⟩ |
    ⟨-, -, -, heq⟩ | ⟨-, -, -, -, heq⟩ | ⟨-, -, -, heq⟩ | ⟨-, -, -, -, heq⟩
  · rw [heq]
    exact h
  · rw [heq]
    refine ⟨h.rw, h.ro, ?_⟩
    intro m' hm'
    rcases List.mem_append.mp hm' with hm' | hm'
    · exact h.ring m' hm'
    · rw [List.mem_singleton.mp hm']
      exact hv
  · rw [heq]
    exact ⟨h.rw, h.ro, h.ring⟩
  · rw [heq]
    exact h
  · rw [heq]
    exact ⟨hrw, hro, h.ring⟩
  · rw [heq]
    exact ⟨hrw, hro, h.ring⟩

/-- Run lemma for the deferred messages. -/
theorem Receiver.VersionLe.handleAll (h : r.VersionLe d v) (hs : r.Sound d) (ms : List MemMsg)
    (hms : ∀ m ∈ ms, m.Wf ∧ m.VersionLe d v) :
    (ms.foldl (Receiver.handleMsgMem false false) r).VersionLe d v := by
  induction ms generalizing r with
  | nil => exact h
  | cons m ms ih =>
    obtain ⟨hm, hv⟩ := hms m List.mem_cons_self
    exact ih (h.handle hs false false hm hv) (hs.handle false false hm)
      (fun m' hm' => hms m' (List.mem_cons_of_mem _ hm'))

/-- A sync on the node copies the version from the RW copy, or leaves it. -/
theorem Receiver.VersionLe.internalSync (hd : d.Wf) (hpos : 0 < d.offsetLogEnd)
    (h : r.VersionLe d v) (hs : r.Sound d) (evs : List SyncEvent) (hev : Completes d evs)
    (hsize : SmallChunks evs) : (r.internalSync d evs).VersionLe d v := by
  have hjob : (r.syncJob d evs).VersionLe d v := by
    unfold Receiver.syncJob
    split_ifs
    · have hp := syncEvents_published hd false r.mem evs hev hsize hs.lists
      have hx : d.Has ((d.h+offVersion)/64) := AreaDesc.Tracked.has hd hpos (Or.inr rfl)
      refine ⟨?_, ?_, h.ring⟩
      · simp only [hp.rw_eq]
        exact h.rw
      · simp only [hp.ro_eq _ hx]
        split_ifs
        · exact h.rw
        · exact h.ro
    · exact h
  obtain ⟨hsound, -⟩ := hs.syncJob hd evs hev hsize
  have hempty : Receiver.Sound d { r.syncJob d evs with ring := [] } :=
    ⟨hsound.awake, hsound.clean, hsound.lists, hsound.deferring, hsound.skipping, hsound.counted,
      fun m hm => absurd hm List.not_mem_nil⟩
  have hleft : Receiver.VersionLe d v { r.syncJob d evs with ring := [] } :=
    ⟨hjob.rw, hjob.ro, fun m hm => absurd hm List.not_mem_nil⟩
  exact hleft.handleAll hempty (r.syncJob d evs).ring
    (fun m hm => ⟨hsound.queued m hm, hjob.ring m hm⟩)

end

/-- The published versions are counted by `history`, and everything that any other
node knows or may yet get is at most the last one. -/
structure VersionInv (d : AreaDesc) (s : VersionState) : Prop where
  sender : ∃ pub img v, SenderInv d s.owner pub img v ∧ ∀ p ∈ s.history, pub p.1 = p.2
  numbered : s.history.map Prod.fst = List.range' 1 s.history.length
  published : s.owner.mem.ro (d.h+offVersion) = s.history.length
  sent : ∀ m ∈ s.owner.tx.ring, m.Wf ∧ m.VersionLe d s.history.length
  remotes : ∀ n, (s.remotes n).r.Sound d ∧ (s.remotes n).r.VersionLe d s.history.length
  requests : ∀ w ∈ s.requests, w < s.current d
  aborted : s.aborted = false

section
variable {d : AreaDesc} {s : VersionState}

theorem VersionInv.current_eq (h : VersionInv d s) : s.current d = s.history.length+1 := by
  obtain ⟨pub, img, v, hsend, -⟩ := h.sender
  rw [← h.published]
  exact hsend.next

theorem VersionInv.version_le (h : VersionInv d s) {p : ℕ × Mem} (hp : p ∈ s.history) :
    p.1 ≤ s.history.length := by
  have hmem : p.1 ∈ s.history.map Prod.fst := List.mem_map_of_mem hp
  rw [h.numbered, List.mem_range'_1] at hmem
  omega

/-- What a thread that maps the RO copy sees of the version. -/
theorem VersionInv.view_lt (h : VersionInv d s) (node : Option ℕ) :
    s.viewVersion d node < s.current d := by
  rw [h.current_eq]
  cases node with
  | none => exact Nat.lt_succ_of_le (le_of_eq h.published)
  | some n =>
    unfold VersionState.viewVersion
    simp only
    split_ifs
    · exact Nat.lt_succ_of_le (h.remotes n).2.ro
    · exact Nat.succ_pos _

variable (hd : d.Wf) (hpos : 0 < d.offsetLogEnd)
include hd hpos

theorem versionInv_init (h : s.Fresh d) : VersionInv d s := by
  obtain ⟨hro, hrw, hinfo⟩ := h.versions
  obtain ⟨hhist, hreq, hab⟩ := h.record
  refine ⟨⟨fun _ => s.owner.mem.ro, s.owner.mem.ro, 0, ?_, ?_⟩, ?_, ?_, ?_, ?_, ?_, hab⟩
  · refine ⟨fun t => (h.lists t).2, fun t _ => (h.lists t).1, ?_, ?_, ?_, fun _ _ => rfl,
      Nat.zero_le _, fun _ _ _ => rfl, fun x _ hne => absurd rfl hne, ?_⟩
    · rw [(h.lists 0).1]
      exact fun it hit => absurd hit List.not_mem_nil
    · rw [(h.lists 0).1]
      exact Nat.zero_le _
    · rw [hro, hrw]
    · rw [hinfo]
      exact Nat.zero_le _
  · rw [hhist]
    exact fun p hp => absurd hp List.not_mem_nil
  · rw [hhist]
    rfl
  · rw [hhist, hro]
    rfl
  · rw [h.ring]
    exact fun m hm => absurd hm List.not_mem_nil
  · intro n
    obtain ⟨hfresh, hzero⟩ := h.remotes n
    rw [hhist, List.length_nil]
    refine ⟨sound_reachable hd (.init hfresh), ⟨le_of_eq hzero, le_of_eq ?_, ?_⟩⟩
    · rw [hfresh.copies _ (AreaDesc.Tracked.has hd hpos (Or.inr rfl)), hzero]
    · rw [hfresh.ring]
      exact fun m hm => absurd hm List.not_mem_nil
  · rw [hreq]
    exact fun w hw => absurd hw List.not_mem_nil

variable (hend : d.offsetLogEnd < 2^31)
include hend

/-- A completed sync on the owner's node. -/
theorem VersionInv.internal (h : VersionInv d s) (evs : List SyncEvent) (hev : Completes d evs)
    (timeUs : ℕ) : VersionInv d (s.next d (.internal evs timeUs)) := by
  obtain ⟨pub, img, v, hsend, hpub⟩ := h.sender
  obtain ⟨hsend', hrec⟩ := hsend.internal hd hpos (by omega) (fun _ => by omega) evs hev timeUs
  have hver := hsend.internal_version hd hpos (by omega) (fun _ => by omega) evs hev timeUs
  have htx := s.owner.internal_tx d evs timeUs
  have hnext := hsend'.next
  have hnow := h.current_eq
  rw [VersionState.current] at hnow
  have hold : ∀ p ∈ s.history, s.owner.record d evs timeUs pub p.1 = p.2 := by
    intro p hp
    rw [hrec p.1 (by rw [h.published]; exact h.version_le hp)]
    exact hpub p hp
  cases hch : hasChanges (syncUpdated d true s.owner.mem evs)
  · -- nothing is published
    rw [hch, if_neg Bool.false_ne_true, h.published] at hver
    have heq : s.next d (.internal evs timeUs) =
        { s with owner := s.owner.internal d evs timeUs } := by
      simp only [VersionState.next, hch, Bool.false_eq_true, ↓reduceIte]
    rw [heq]
    refine ⟨⟨_, img, v, hsend', hold⟩, h.numbered, hver, ?_, h.remotes, ?_, h.aborted⟩
    · simp only [htx]
      exact h.sent
    · intro w hw
      have hlt := h.requests w hw
      rw [VersionState.current] at hlt ⊢
      simp only [hnext, hver]
      omega
  · -- the RW version gets its name in the history
    rw [hch, if_pos rfl, hnow] at hver
    have heq : s.next d (.internal evs timeUs) =
        { s with
          owner := s.owner.internal d evs timeUs
          history := s.history ++
            [(s.history.length+1, (s.owner.internal d evs timeUs).mem.ro)] } := by
      simp only [VersionState.next, hch, ↓reduceIte, hver]
    have hlen : (s.history ++ [(s.history.length+1,
        (s.owner.internal d evs timeUs).mem.ro)]).length = s.history.length+1 := by
      rw [List.length_append, List.length_singleton]
    rw [heq]
    refine ⟨⟨_, img, v, hsend', ?_⟩, ?_, ?_, ?_, ?_, ?_, h.aborted⟩
    · intro p hp
      rcases List.mem_append.mp hp with hp | hp
      · exact hold p hp
      · rw [List.mem_singleton.mp hp, OwnerNode.record, hch, if_pos rfl, hnow, Function.update_self]
    · simp only [hlen]
      rw [List.map_append, h.numbered, List.range'_concat, Nat.one_mul, Nat.add_comm 1]
      rfl
    · simp only [hlen]
      exact hver
    · simp only [hlen, htx]
      intro m hm
      obtain ⟨hwf, hle⟩ := h.sent m hm
      exact ⟨hwf, hle.mono (Nat.le_succ _)⟩
    · simp only [hlen]
      intro n
      obtain ⟨hsound, hle⟩ := h.remotes n
      exact ⟨hsound, hle.mono (Nat.le_succ _)⟩
    · intro w hw
      have hlt := h.requests w hw
      rw [VersionState.current] at hlt ⊢
      simp only [hnext, hver]
      omega

/-- An emission carries the version of the RO header, or none. -/
theorem VersionInv.external (h : VersionInv d s) (e : ExtCall) (he : e.d = d)
    (hfree : d.isRoot = true → (s.owner.mem.lists 0).l.length < syncListLen) :
    VersionInv d (s.next d (.external e)) := by
  obtain ⟨pub, img, v, hsend, hpub⟩ := h.sender
  obtain ⟨⟨hro, hrw, -⟩, -⟩ := external_frame e (by rw [he]; exact hd.end_aligned) s.owner.ctx
    s.owner.logs
  have hro' : (s.owner.external e).mem.ro = s.owner.mem.ro := hro
  have hrw' : (s.owner.external e).mem.rw = s.owner.mem.rw := hrw
  have hreq : ∀ w ∈ s.requests, w < (s.owner.external e).mem.rw (d.h+offVersion) := by
    rw [hrw']
    exact h.requests
  have hver : (s.owner.external e).mem.ro (d.h+offVersion) = s.history.length := by
    rw [hro']
    exact h.published
  rcases hsend.external hd hpos (by omega) e he hfree with ⟨hring, hsend', -⟩ |
    ⟨ms, hring, hf, hsend', -⟩
  · refine ⟨⟨pub, img, v, hsend', hpub⟩, h.numbered, hver, ?_, h.remotes, hreq, h.aborted⟩
    simp only [VersionState.next, hring]
    exact h.sent
  · refine ⟨⟨pub, _, _, hsend', hpub⟩, h.numbered, hver, ?_, h.remotes, hreq, h.aborted⟩
    simp only [VersionState.next, hring]
    intro m hm
    rcases List.mem_append.mp hm with hm | hm
    · exact h.sent m hm
    · exact ⟨hf.wf m hm, (hf.stream.mem hm).1.versionLe (le_of_eq h.published)⟩

/-- A step of another node. -/
theorem VersionInv.remote (h : VersionInv d s) (n : ℕ) (a : RemoteAct)
    (ha : s.pre d (.remote n a)) : VersionInv d (s.next d (.remote n a)) := by
  have hnode : ((s.remotes n).next d a).r.Sound d ∧
      ((s.remotes n).next d a).r.VersionLe d s.history.length := by
    obtain ⟨hs, hv⟩ := h.remotes n
    cases a with
    | learn =>
      exact ⟨⟨hs.awake, hs.clean, hs.lists, hs.deferring, hs.skipping, hs.counted, hs.queued⟩,
        ⟨hv.rw, hv.ro, hv.ring⟩⟩
    | boot =>
      exact ⟨⟨hs.awake, hs.clean, hs.lists, hs.deferring, hs.skipping, hs.counted, hs.queued⟩,
        ⟨hv.rw, hv.ro, hv.ring⟩⟩
    | recv m late full =>
      obtain ⟨hwf, hle⟩ := h.sent m ha
      exact ⟨hs.handle late full hwf, hv.handle hs late full hwf hle⟩
    | sync evs =>
      have hsize : SmallChunks evs := ha.2.smallChunks (by omega)
      exact ⟨(hs.syncJob hd evs ha.2 hsize).1.drain, hv.internalSync hd hpos hs evs ha.2 hsize⟩
    | fail => exact ⟨hs, hv⟩
  refine ⟨h.sender, h.numbered, h.published, h.sent, ?_, h.requests, h.aborted⟩
  intro n'
  simp only [VersionState.next]
  by_cases hn : n' = n
  · rw [hn, Function.update_self]
    exact hnode
  · rw [Function.update_of_ne hn]
    exact h.remotes n'

/-- Step lemma. -/
theorem VersionInv.step (h : VersionInv d s) (a : VersionAct) (ha : s.pre d a) :
    VersionInv d (s.next d a) := by
  cases a with
  | update ops =>
    obtain ⟨pub, img, v, hsend, hpub⟩ := h.sender
    obtain ⟨hro, -⟩ := ops_frame (d := d) ops s.owner.mem
    have hrw := ops_header ops ha s.owner.mem offVersion (by norm_num [offVersion, sizeofHeader])
    refine ⟨⟨pub, img, v, hsend.update ops ha, hpub⟩, h.numbered, ?_, h.sent, h.remotes, ?_,
      h.aborted⟩
    · simp only [VersionState.next, hro]
      exact h.published
    · simp only [VersionState.next, VersionState.current, hrw]
      exact h.requests
  | internal evs timeUs => exact h.internal hd hpos hend evs ha timeUs
  | external e => exact h.external hd hpos hend e ha.1 ha.2
  | rotate timeUs =>
    obtain ⟨pub, img, v, hsend, hpub⟩ := h.sender
    exact ⟨⟨pub, img, v, hsend.rotate timeUs, hpub⟩, h.numbered, h.published, h.sent, h.remotes,
      h.requests, h.aborted⟩
  | remote n a => exact h.remote hd hpos hend n a ha
  | request node =>
    refine ⟨h.sender, h.numbered, h.published, h.sent, h.remotes, ?_, h.aborted⟩
    intro w hw
    rcases List.mem_cons.mp hw with hw | hw
    · rw [hw]
      exact h.view_lt node
    · exact h.requests w hw
  | respond version =>
    -- the abort needs a request with the owner's own version
    have hne : version ≠ s.current d := Nat.ne_of_lt (h.requests version ha)
    have heq : s.next d (.respond version) = { s with responses := s.current d :: s.responses } :=
      if_neg hne
    rw [heq]
    exact ⟨h.sender, h.numbered, h.published, h.sent, h.remotes, h.requests, h.aborted⟩

theorem versionInv_reachable (h : (versionSystem d).Reachable s) : VersionInv d s := by
  apply h.invariant
  · intro s hs
    exact versionInv_init hd hpos hs
  · intro s a hs ha
    exact hs.step hd hpos hend a ha

end

/-- Version discipline: the publications are numbered 1, 2, 3 and so on and each
number names one copy, the owner's RW version is the next number, every other
copy of the version on any node is below it, and so are the versions requests are
sent with: the owner never aborts over one. -/
theorem version_discipline (d : AreaDesc) (hd : d.Wf) (hpos : 0 < d.offsetLogEnd)
    (hend : d.offsetLogEnd < 2^31) (s : VersionState) (h : (versionSystem d).Reachable s) :
    s.history.map Prod.fst = List.range' 1 s.history.length ∧
    (∀ p ∈ s.history, p.1 = s.owner.mem.ro (d.h+offVersion) →
      ∀ x, d.Payload x → s.owner.mem.ro x = p.2 x) ∧
    s.current d = s.history.length+1 ∧
    s.owner.mem.ro (d.h+offVersion) < s.current d ∧
    (∀ n, (s.remotes n).r.mem.rw (d.h+offVersion) < s.current d ∧
      (s.remotes n).r.mem.ro (d.h+offVersion) < s.current d) ∧
    (∀ w ∈ s.requests, w < s.current d) ∧ s.aborted = false := by
  have hinv := versionInv_reachable hd hpos hend h
  have hnow := hinv.current_eq
  refine ⟨hinv.numbered, ?_, hnow, ?_, ?_, hinv.requests, hinv.aborted⟩
  · intro p hp hver x hx
    obtain ⟨pub, img, v, hsend, hpub⟩ := hinv.sender
    rw [hsend.current x (Or.inl hx), ← hver, hpub p hp]
  · rw [hnow, hinv.published]
    exact Nat.lt_succ_self _
  · intro n
    rw [hnow]
    exact ⟨Nat.lt_succ_of_le (hinv.remotes n).2.rw, Nat.lt_succ_of_le (hinv.remotes n).2.ro⟩

/-- A new area, and nodes that know nothing of it. -/
def newVersions : VersionState where
  owner := { dirtyNode 32768 with mem := emptyMem }
  remotes := fun _ => ⟨newReceiver.r, 0⟩

/-- Another thread of the node sends a request before the first publication and
the owner answers after it. -/
theorem version_discipline_first : ∃ s : VersionState, (versionSystem (areaOf 32768)).Reachable s ∧
    s.history.length = 1 ∧ s.requests = [0] ∧ s.responses = [2] ∧
    s.history.map Prod.fst = List.range' 1 s.history.length ∧
    s.current (areaOf 32768) = s.history.length+1 ∧ s.aborted = false := by
  have hd : (areaOf 32768).Wf := areaOf_wf ⟨1, rfl⟩ (by norm_num)
  have hpos : 0 < (areaOf 32768).offsetLogEnd := by norm_num [areaOf]
  have hend : (areaOf 32768).offsetLogEnd < 2^31 := by norm_num [areaOf]
  have hev : Completes (areaOf 32768) [.parse 0 0 32768, .process 0] :=
    completes_whole (areaOf 32768) hd hpos
  obtain ⟨hvalid, -⟩ := dirty_log 32768 ⟨1, rfl⟩ (by norm_num) (by norm_num)
  have hchanges := dirty_hasChanges 32768 ⟨1, rfl⟩ (by norm_num) (by norm_num) (by decide)
  have hinit : (versionSystem (areaOf 32768)).Reachable newVersions :=
    .init ⟨fun _ => ⟨rfl, rfl⟩, ⟨rfl, rfl, rfl⟩, rfl, fun _ => ⟨⟨⟨rfl, rfl, rfl, rfl⟩, rfl,
      fun _ _ => rfl, fun _ _ hit => absurd hit List.not_mem_nil⟩, rfl⟩, rfl, rfl, rfl⟩
  have hasked : (versionSystem (areaOf 32768)).Reachable
      { newVersions with owner := dirtyNode 32768, requests := [0] } :=
    hinit.run [.update [.log (0, 32768)], .request none] ⟨hvalid, trivial, trivial⟩
  have hsync := hasked.step (a := VersionAct.internal [.parse 0 0 32768, .process 0] 5) hev
  simp only [versionSystem, VersionState.next, hchanges, ↓reduceIte] at hsync
  obtain ⟨-, -, hnow, -⟩ := version_discipline (areaOf 32768) hd hpos hend _ hsync
  have hdone := hsync.step (a := VersionAct.respond 0) (List.mem_singleton.mpr rfl)
  simp only [VersionState.next, hnow] at hdone
  obtain ⟨h1, -, h3, -, -, -, h7⟩ := version_discipline (areaOf 32768) hd hpos hend _ hdone
  exact ⟨_, hdone, rfl, rfl, rfl, h1, h3, h7⟩

end Tasvir
