import Mathlib.Tactic
import Tasvir.InternalSync
import Tasvir.Machine

/-! The owner's side of an area: between two syncs it writes payload ranges of
its RW copy and logs them; a sync publishes the logged lines to the RO copy. -/
namespace Tasvir
open RunLength Machine

/-- A byte range of an area, as offset and length. -/
abbrev Range := ℕ × ℕ

/-- Cell `x` of the data region belongs to the payload of the area. -/
def AreaDesc.Payload (d : AreaDesc) (x : ℕ) : Prop :=
  d.h+sizeofHeader ≤ x ∧ x < d.h+d.offsetLogEnd

/-- Line `l` of the data region holds a byte of the range. -/
def AreaDesc.Touches (d : AreaDesc) (r : Range) (l : ℕ) : Prop :=
  (d.h+r.1)/64 ≤ l ∧ l ≤ (d.h+r.1+r.2-1)/64

instance (d : AreaDesc) (r : Range) (l : ℕ) : Decidable (d.Touches r l) :=
  inferInstanceAs (Decidable (_ ∧ _))

theorem AreaDesc.Payload.has {d : AreaDesc} (hd : d.Wf) {x : ℕ} (h : d.Payload x) :
    d.Has (x/64) := by
  obtain ⟨h1, h2⟩ := h
  obtain ⟨a, ha⟩ := hd.h_aligned
  obtain ⟨b, hb⟩ := hd.end_aligned
  simp only [sizeofHeader] at h1
  exact ⟨by omega, by omega⟩

/-- The owner stores bytes at an offset of the RW copy. -/
def NodeMem.write (d : AreaDesc) (m : NodeMem) (o : ℕ) (bytes : List ℕ) : NodeMem :=
  { m with rw := fun x =>
      if d.h+o ≤ x ∧ x < d.h+o+bytes.length then bytes.getD (x-(d.h+o)) 0 else m.rw x }

/-- `tasvir_log` of a range of the area. -/
def NodeMem.logRange (d : AreaDesc) (m : NodeMem) (r : Range) : NodeMem :=
  { m with log := tasvirLog m.log (addrData+(d.h+r.1)) r.2 }

-- proved by unfolding first: a bare `rfl` makes the kernel evaluate `tasvirLog`
theorem NodeMem.logRange_frame (d : AreaDesc) (m : NodeMem) (r : Range) :
    (m.logRange d r).ro = m.ro ∧ (m.logRange d r).rw = m.rw ∧ (m.logRange d r).diff = m.diff ∧
    (m.logRange d r).lists = m.lists := by
  unfold NodeMem.logRange
  exact ⟨rfl, rfl, rfl, rfl⟩

inductive OwnerOp
  | write (offset : ℕ) (bytes : List ℕ)
  | log (r : Range)
deriving DecidableEq

/-- Writes stay in the payload, logs in the area, and neither is empty. -/
def OwnerOp.Valid (d : AreaDesc) : OwnerOp → Prop
  | .write o bytes => sizeofHeader ≤ o ∧ 1 ≤ bytes.length ∧ o+bytes.length ≤ d.offsetLogEnd
  | .log r => 1 ≤ r.2 ∧ r.1+r.2 ≤ d.offsetLogEnd

def NodeMem.op (d : AreaDesc) (m : NodeMem) : OwnerOp → NodeMem
  | .write o bytes => m.write d o bytes
  | .log r => m.logRange d r

def NodeMem.ops (d : AreaDesc) (m : NodeMem) (ops : List OwnerOp) : NodeMem :=
  ops.foldl (NodeMem.op d) m

/-- The ranges a list of operations logs. -/
def logsOf (ops : List OwnerOp) : List Range :=
  ops.filterMap fun
    | .write _ _ => none
    | .log r => some r

theorem mem_logsOf {ops : List OwnerOp} {r : Range} : r ∈ logsOf ops ↔ .log r ∈ ops := by
  simp only [logsOf, List.mem_filterMap]
  constructor
  · rintro ⟨op, hop, h⟩
    cases op with
    | write o b => exact absurd h (by simp)
    | log r' =>
      rw [Option.some.inj h] at hop
      exact hop
  · intro h
    exact ⟨.log r, h, rfl⟩

theorem lineBit_logRange {d : AreaDesc} (hd : d.Wf) (m : NodeMem) (r : Range)
    (hv : (OwnerOp.log r).Valid d) (l : ℕ) :
    lineBit (m.logRange d r).log l = (lineBit m.log l || decide (d.Touches r l)) := by
  obtain ⟨h1, h2⟩ := hv
  have hin := hd.inside
  have hmod : (addrData+(d.h+r.1))%2^40 = d.h+r.1 := by
    rw [addrData]
    omega
  have hset := lineBit_tasvirLog m.log (addrData+(d.h+r.1)) r.2 l h1 (by omega)
    (by rw [addrData]; omega)
  rw [hmod] at hset
  exact hset

section
variable {d : AreaDesc} (hd : d.Wf)
include hd

/-- Operations set exactly the bits of the lines they log. -/
theorem lineBit_ops (ops : List OwnerOp) (hv : ∀ op ∈ ops, op.Valid d) (m : NodeMem) (l : ℕ) :
    lineBit (m.ops d ops).log l = true ↔
      lineBit m.log l = true ∨ ∃ r ∈ logsOf ops, d.Touches r l := by
  induction ops generalizing m with
  | nil => simp [NodeMem.ops, logsOf]
  | cons op ops ih =>
    have ht := ih (fun op' h => hv op' (List.mem_cons_of_mem _ h)) (m.op d op)
    change lineBit ((m.op d op).ops d ops).log l = true ↔ _
    rw [ht]
    cases op with
    | write o bytes =>
      have hsame : (m.op d (.write o bytes)).log = m.log := by
        simp only [NodeMem.op, NodeMem.write]
      have hlogs : logsOf (.write o bytes :: ops) = logsOf ops := rfl
      rw [hsame, hlogs]
    | log r =>
      have hlogs : logsOf (.log r :: ops) = r :: logsOf ops := rfl
      have hbit := lineBit_logRange hd m r (hv _ List.mem_cons_self) l
      rw [hlogs, NodeMem.op, hbit, Bool.or_eq_true, decide_eq_true_iff, List.exists_mem_cons_iff,
        or_assoc]

omit hd in
/-- Operations change a cell of RW only where they write, and nothing else. -/
theorem ops_frame (ops : List OwnerOp) (m : NodeMem) :
    (m.ops d ops).ro = m.ro ∧ (m.ops d ops).diff = m.diff ∧ (m.ops d ops).lists = m.lists ∧
    ∀ x, (∀ o bytes, .write o bytes ∈ ops → ¬(d.h+o ≤ x ∧ x < d.h+o+bytes.length)) →
      (m.ops d ops).rw x = m.rw x := by
  induction ops generalizing m with
  | nil => exact ⟨rfl, rfl, rfl, fun _ _ => rfl⟩
  | cons op ops ih =>
    have hfold : m.ops d (op :: ops) = (m.op d op).ops d ops := List.foldl_cons ..
    obtain ⟨h1, h2, h3, h4⟩ := ih (m.op d op)
    rw [hfold]
    have hop : (m.op d op).ro = m.ro ∧ (m.op d op).diff = m.diff ∧
        (m.op d op).lists = m.lists := by
      cases op with
      | write o bytes => exact ⟨rfl, rfl, rfl⟩
      | log r =>
        obtain ⟨hro, _, hdiff, hlists⟩ := m.logRange_frame d r
        exact ⟨hro, hdiff, hlists⟩
    refine ⟨h1.trans hop.1, h2.trans hop.2.1, h3.trans hop.2.2, ?_⟩
    intro x hx
    refine (h4 x (fun o b h => hx o b (List.mem_cons_of_mem _ h))).trans ?_
    cases op with
    | write o bytes =>
      simp only [NodeMem.op, NodeMem.write]
      rw [if_neg (hx o bytes List.mem_cons_self)]
    | log r => exact congrFun (m.logRange_frame d r).2.1 x

end

/-- The owner's run so far: the memory and the ranges logged since the last
completed sync. -/
structure OwnerState where
  mem : NodeMem
  logged : List Range

inductive OwnerAct
  /-- writes and logs, in any order, between two entries into sync -/
  | update (ops : List OwnerOp)
  | failedBarrier
  /-- a completed internal sync of the area -/
  | sync (evs : List SyncEvent)

/-- Every write is covered by a log before the owner next enters sync. -/
def OwnerAct.Allowed (d : AreaDesc) (s : OwnerState) : OwnerAct → Prop
  | .update ops => (∀ op ∈ ops, op.Valid d) ∧ ∀ o bytes, .write o bytes ∈ ops →
      ∃ r ∈ s.logged ++ logsOf ops, r.1 ≤ o ∧ o+bytes.length ≤ r.1+r.2
  | .failedBarrier => True
  | .sync evs => Completes d evs

def OwnerState.next (d : AreaDesc) (isLocal : Bool) (s : OwnerState) : OwnerAct → OwnerState
  | .update ops => ⟨s.mem.ops d ops, s.logged ++ logsOf ops⟩
  | .failedBarrier => s
  | .sync evs => ⟨syncEvents d isLocal s.mem evs, []⟩

/-- A fresh area has a clear log and equal copies. -/
structure OwnerState.Fresh (d : AreaDesc) (s : OwnerState) : Prop where
  log : ∀ l, d.Has l → lineBit s.mem.log l = false
  copies : ∀ x, d.Payload x → s.mem.ro x = s.mem.rw x
  lists : ∀ t, Foreign d (s.mem.lists t).l
  logged : s.logged = []

def ownerSystem (d : AreaDesc) (isLocal : Bool) : System OwnerState OwnerAct where
  init := OwnerState.Fresh d
  pre s a := a.Allowed d s
  next := OwnerState.next d isLocal

structure OwnerInv (d : AreaDesc) (s : OwnerState) : Prop where
  clean : ∀ x, d.Payload x → lineBit s.mem.log (x/64) = false → s.mem.ro x = s.mem.rw x
  logged : ∀ l, d.Has l → (lineBit s.mem.log l = true ↔ ∃ r ∈ s.logged, d.Touches r l)
  lists : ∀ t, Foreign d (s.mem.lists t).l

theorem OwnerInv.update {d : AreaDesc} (hd : d.Wf) {s : OwnerState} (h : OwnerInv d s)
    (ops : List OwnerOp) (ha : (OwnerAct.update ops).Allowed d s) :
    OwnerInv d ⟨s.mem.ops d ops, s.logged ++ logsOf ops⟩ := by
  obtain ⟨hv, hcov⟩ := ha
  obtain ⟨hro, -, hlists, hrw⟩ := ops_frame (d := d) ops s.mem
  have hlog : ∀ l, d.Has l → (lineBit (s.mem.ops d ops).log l = true ↔
      ∃ r ∈ s.logged ++ logsOf ops, d.Touches r l) := by
    intro l hl
    rw [lineBit_ops hd ops hv, h.logged l hl]
    simp only [List.mem_append, or_and_right, exists_or]
  refine ⟨?_, hlog, ?_⟩
  · intro x hx hbit
    have hnot : ∀ r ∈ s.logged ++ logsOf ops, ¬d.Touches r (x/64) := by
      intro r hr ht
      rw [(hlog _ (hx.has hd)).mpr ⟨r, hr, ht⟩] at hbit
      exact Bool.noConfusion hbit
    change (s.mem.ops d ops).ro x = (s.mem.ops d ops).rw x
    rw [hro, hrw x]
    · apply h.clean x hx
      rw [← Bool.not_eq_true, h.logged _ (hx.has hd)]
      rintro ⟨r, hr, ht⟩
      exact hnot r (List.mem_append_left _ hr) ht
    · -- a written cell lies in a logged range, so its bit would be set
      intro o bytes hw hin
      obtain ⟨r, hr, h1, h2⟩ := hcov o bytes hw
      apply hnot r hr
      exact ⟨by omega, by omega⟩
  · intro t
    change Foreign d ((s.mem.ops d ops).lists t).l
    rw [hlists]
    exact h.lists t

theorem OwnerInv.sync_short {d : AreaDesc} (hd : d.Wf) (isLocal : Bool) {s : OwnerState}
    (h : OwnerInv d s) (evs : List SyncEvent) (hev : Completes d evs)
    (hshort : ∀ t o n, .parse t o n ∈ evs → ShortIn d s.mem o n) :
    OwnerInv d ⟨syncEvents d isLocal s.mem evs, []⟩ ∧
    ∀ x, d.Payload x → (syncEvents d isLocal s.mem evs).ro x = s.mem.rw x := by
  have hp := syncEvents_published_short hd isLocal s.mem evs hev hshort h.lists
  have hro : ∀ x, d.Payload x → (syncEvents d isLocal s.mem evs).ro x = s.mem.rw x := by
    intro x hx
    rw [hp.ro_eq x (hx.has hd)]
    cases hb : lineBit s.mem.log (x/64)
    · exact h.clean x hx hb
    · rfl
  refine ⟨⟨?_, ?_, hp.lists_foreign⟩, hro⟩
  · intro x hx _
    exact (hro x hx).trans (congrFun hp.rw_eq x).symm
  · intro l hl
    simp [hp.log_in l hl]

theorem OwnerInv.sync {d : AreaDesc} (hd : d.Wf) (hend : d.offsetLogEnd < 2^32) (isLocal : Bool)
    {s : OwnerState} (h : OwnerInv d s) (evs : List SyncEvent) (hev : Completes d evs) :
    OwnerInv d ⟨syncEvents d isLocal s.mem evs, []⟩ ∧
    ∀ x, d.Payload x → (syncEvents d isLocal s.mem evs).ro x = s.mem.rw x := by
  apply h.sync_short hd isLocal evs hev
  intro t o n hx
  exact shortIn_of_lt d s.mem (hev.aligned t o n hx).1 (hev.smallChunks hend t o n hx)

theorem ownerInv_reachable {d : AreaDesc} (hd : d.Wf) (hend : d.offsetLogEnd < 2^32)
    (isLocal : Bool) {s : OwnerState} (h : (ownerSystem d isLocal).Reachable s) :
    OwnerInv d s := by
  apply h.invariant
  · intro s hs
    refine ⟨fun x hx _ => hs.copies x hx, ?_, hs.lists⟩
    intro l hl
    simp [hs.log l hl, hs.logged]
  · intro s a hs ha
    cases a with
    | update ops => exact hs.update hd ops ha
    | failedBarrier => exact hs
    | sync evs => exact (hs.sync hd hend isLocal evs ha).1

/-- Internal sync publishes exactly the logged writes. In every reachable state,
and also halfway through an update on the lines it has not written yet, a line
with a clear bit is the same in both copies. A completed sync clears all bits,
makes the RO payload equal to the RW payload, changes only lines logged since
the previous sync, and adds exactly these lines to diff log 0 of a local area. -/
theorem sync_publishes_logged_writes (d : AreaDesc) (hd : d.Wf) (hend : d.offsetLogEnd < 2^32)
    (isLocal : Bool) (s : OwnerState) (h : (ownerSystem d isLocal).Reachable s) :
    (∀ x, d.Payload x → lineBit s.mem.log (x/64) = false → s.mem.ro x = s.mem.rw x) ∧
    (∀ p q, (OwnerAct.update (p ++ q)).Allowed d s → ∀ x, d.Payload x →
      lineBit (s.mem.ops d p).log (x/64) = false →
      (∀ o bytes, .write o bytes ∈ p → ¬d.Touches (o, bytes.length) (x/64)) →
      (s.mem.ops d p).ro x = (s.mem.ops d p).rw x) ∧
    ∀ evs, Completes d evs →
      let m' := ((ownerSystem d isLocal).next s (.sync evs)).mem
      (∀ l, d.Has l → lineBit m'.log l = false) ∧
      (∀ x, d.Payload x → m'.ro x = m'.rw x ∧ m'.rw x = s.mem.rw x) ∧
      (∀ x, d.Payload x → m'.ro x ≠ s.mem.ro x → ∃ r ∈ s.logged, d.Touches r (x/64)) ∧
      (isLocal = true → ∀ l < d.offsetLogEnd/64, (lineBit (m'.diff 0) l = true ↔
        lineBit (s.mem.diff 0) l = true ∨ ∃ r ∈ s.logged, d.Touches r (d.h/64+l))) := by
  have hinv := ownerInv_reachable hd hend isLocal h
  refine ⟨hinv.clean, ?_, ?_⟩
  · rintro p q ⟨hv, _⟩ x hx hbit hout
    obtain ⟨hro, -, -, hrw⟩ := ops_frame (d := d) p s.mem
    rw [hro, hrw x]
    · apply hinv.clean x hx
      rw [← Bool.not_eq_true]
      intro hset
      have hvp : ∀ op ∈ p, op.Valid d := fun op hop => hv op (List.mem_append_left _ hop)
      rw [(lineBit_ops hd p hvp s.mem (x/64)).mpr (Or.inl hset)] at hbit
      exact Bool.noConfusion hbit
    · intro o bytes hw hin
      exact hout o bytes hw ⟨by omega, by omega⟩
  · intro evs hev
    have hp := syncEvents_published hd isLocal s.mem evs hev (hev.smallChunks hend) hinv.lists
    obtain ⟨-, hro⟩ := hinv.sync hd hend isLocal evs hev
    refine ⟨hp.log_in, ?_, ?_, ?_⟩
    · intro x hx
      have hrw := congrFun hp.rw_eq x
      exact ⟨(hro x hx).trans hrw.symm, hrw⟩
    · intro x hx hne
      rw [← hinv.logged _ (hx.has hd), ← Bool.not_eq_false]
      intro hclear
      exact hne ((hro x hx).trans (hinv.clean x hx hclear).symm)
    · intro hloc l hl
      change lineBit ((syncEvents d isLocal s.mem evs).diff 0) l = true ↔ _
      rw [hp.diff_eq hloc l hl, Bool.or_eq_true, hinv.logged _ ⟨by omega, by omega⟩]

/-- One thread that takes the area as a single chunk completes a sync. -/
theorem completes_whole (d : AreaDesc) (hd : d.Wf) (hpos : 0 < d.offsetLogEnd) :
    Completes d [.parse 0 0 d.offsetLogEnd, .process 0] := by
  refine ⟨?_, ?_, ?_⟩
  · intro t o n h
    simp only [List.mem_cons, SyncEvent.parse.injEq, List.not_mem_nil, or_false,
      reduceCtorEq] at h
    obtain ⟨-, rfl, rfl⟩ := h
    exact ⟨Nat.dvd_zero _, hd.end_aligned, by omega, hpos⟩
  · intro o ho
    exact ⟨0, 0, d.offsetLogEnd, List.mem_cons_self, by omega, by omega⟩
  · intro p t o n q h
    cases p with
    | nil =>
      simp only [List.nil_append, List.cons.injEq, SyncEvent.parse.injEq] at h
      obtain ⟨⟨rfl, -, -⟩, rfl⟩ := h
      exact List.mem_cons_self
    | cons a p =>
      -- the only chunk is the first event
      have hmem : SyncEvent.parse t o n ∈ [SyncEvent.process 0] := by
        rw [List.cons_append, List.cons.injEq] at h
        rw [h.2]
        exact List.mem_append_right _ List.mem_cons_self
      exact absurd (List.mem_singleton.mp hmem) (by simp)

/-- The smallest area, behind the root descriptor. -/
def smallArea : AreaDesc := ⟨32768, 32768, false⟩

theorem smallArea_wf : smallArea.Wf :=
  ⟨⟨1, rfl⟩, by norm_num [smallArea], ⟨1, rfl⟩, by norm_num [smallArea]⟩

def zeroMem : NodeMem :=
  ⟨fun _ => 0, fun _ => 0, fun _ => 0#64, fun _ _ => 0#64, fun _ => {}⟩

theorem zeroMem_fresh (d : AreaDesc) : OwnerState.Fresh d ⟨zeroMem, []⟩ := by
  refine ⟨?_, fun _ _ => rfl, ?_, rfl⟩
  · intro l _
    exact BitVec.getMsbD_zero
  · intro t it hit
    exact absurd hit List.not_mem_nil

/-- The owner writes and logs the first payload byte. -/
theorem firstByte_allowed (s : OwnerState) :
    (OwnerAct.update [.write 1344 [7], .log (1344, 1)]).Allowed smallArea s := by
  constructor
  · intro op hop
    simp only [List.mem_cons, List.not_mem_nil, or_false] at hop
    rcases hop with rfl | rfl
    · exact ⟨by norm_num [sizeofHeader], by norm_num, by norm_num [smallArea]⟩
    · exact ⟨by norm_num, by norm_num [smallArea]⟩
  · intro o bytes hw
    simp only [List.mem_cons, OwnerOp.write.injEq, List.not_mem_nil, or_false,
      reduceCtorEq] at hw
    obtain ⟨rfl, rfl⟩ := hw
    exact ⟨(1344, 1), by simp [logsOf], by norm_num, by norm_num⟩

theorem sync_publishes_logged_byte :
    let d : AreaDesc := ⟨32768, 32768, false⟩
    let m : NodeMem :=
      ⟨fun _ => 0, fun _ => 0, fun _ => 0#64, fun _ _ => 0#64, fun _ => {}⟩
    let s := (ownerSystem d true).next ⟨m, []⟩ (.update [.write 1344 [7], .log (1344, 1)])
    (ownerSystem d true).Reachable s ∧ Completes d [.parse 0 0 32768, .process 0] ∧
    ((ownerSystem d true).next s (.sync [.parse 0 0 32768, .process 0])).mem.ro (32768+1344) =
      s.mem.rw (32768+1344) := by
  intro d m s
  have hreach : (ownerSystem d true).Reachable s :=
    .step (.init (zeroMem_fresh d)) (firstByte_allowed _)
  have hev := completes_whole d smallArea_wf (by norm_num [d])
  obtain ⟨-, -, hsync⟩ := sync_publishes_logged_writes d smallArea_wf (by norm_num [d]) true s hreach
  obtain ⟨-, hro, -⟩ := hsync _ hev
  obtain ⟨h1, h2⟩ := hro (32768+1344) ⟨by norm_num [sizeofHeader, d], by norm_num [d]⟩
  exact ⟨hreach, hev, h1.trans h2⟩

end Tasvir
