import Mathlib.Tactic
import Tasvir.OwnerNode
import Tasvir.Machine

/-! `tasvir_area_activate`: the owner of a local area switches its syncs off and
on again. The daemon looks at the flag when it builds the job list of a round;
the jobs run later, after the owner has had time for further steps. -/
namespace Tasvir
open Machine

/-- The flags of the RW header that decide whether an area is synced. -/
structure AreaFlags where
  active : Bool := true
  extPending : Bool := false
  sleeping : Bool := false
deriving DecidableEq, Repr

/-- `tasvir_area_activate`; `mappedRw` is `tasvir_area_is_mapped_rw` of the caller. -/
def tasvirAreaActivate (f : AreaFlags) (mappedRw active : Bool) : AreaFlags :=
  if f.active && mappedRw then
    if active && f.sleeping then { f with sleeping := false }
    else if !active && !f.sleeping then { f with sleeping := true }
    else f
  else f

/-- The test of `tasvir_sched_sync_internal_area`. -/
def AreaFlags.skipped (f : AreaFlags) : Bool := f.extPending || f.sleeping

/-- How far the current round has come, as far as the area is concerned. -/
inductive Round
  /-- no round, or its walk has not reached the area -/
  | idle
  /-- the walk has passed the area and put it on the job list or not -/
  | walked (listed : Bool)
  /-- the owner waits in the barrier -/
  | entered (listed : Bool)
deriving DecidableEq, Repr

def Round.listed : Round → Bool
  | .idle => false
  | .walked b | .entered b => b

/-- The owner's node, the ranges logged since the last sync of the area, its
flags and the round. -/
structure PauseState where
  node : OwnerNode
  logged : List Range
  flags : AreaFlags
  round : Round

def PauseState.owner (s : PauseState) : OwnerState := ⟨s.node.mem, s.logged⟩

inductive PauseAct
  /-- writes and logs of the owner -/
  | update (ops : List OwnerOp)
  /-- `tasvir_area_activate(d, active)` -/
  | activate (active : Bool)
  /-- the walk of `tasvir_sched_sync_internal` comes to the area -/
  | visit
  /-- `tasvir_service` of the owner enters the barrier -/
  | enter
  | failedBarrier
  /-- the jobs of the round are done -/
  | finish (evs : List SyncEvent) (timeUs : ℕ)

namespace PauseState

/-- The owner does nothing else while it waits in the barrier. A service call
that finds no new round changes nothing here. -/
def pre (d : AreaDesc) (s : PauseState) : PauseAct → Prop
  | .update ops => (∀ b, s.round ≠ .entered b) ∧ (OwnerAct.update ops).Allowed d s.owner
  | .activate _ => ∀ b, s.round ≠ .entered b
  | .visit => s.round = .idle
  | .enter => ∃ b, s.round = .walked b
  | .failedBarrier => s.round ≠ .idle
  | .finish evs _ => s.round ≠ .idle ∧ Completes d evs

def next (d : AreaDesc) (s : PauseState) : PauseAct → PauseState
  | .update ops =>
    { s with
      node := { s.node with mem := s.node.mem.ops d ops }
      logged := s.logged ++ logsOf ops }
  | .activate active => { s with flags := tasvirAreaActivate s.flags true active }
  | .visit => { s with round := .walked !s.flags.skipped }
  | .enter => { s with round := .entered s.round.listed }
  | .failedBarrier => { s with round := .idle }
  | .finish evs timeUs =>
    if s.round.listed then
      { s with node := s.node.internal d evs timeUs, logged := [], round := .idle }
    else { s with round := .idle }

/-- A fresh area of the owner, active and not asleep. -/
structure Fresh (d : AreaDesc) (s : PauseState) : Prop where
  owner : s.owner.Fresh d
  flags : s.flags = {}
  round : s.round = .idle

end PauseState

def pauseSystem (d : AreaDesc) : System PauseState PauseAct where
  init := PauseState.Fresh d
  pre := PauseState.pre d
  next := PauseState.next d

/-- The condition on a step: the owner deactivates the area only while it is not
on the job list of a round that still has to run, and no run of logged lines
inside a chunk reaches 4 GiB. -/
def PauseState.unlisted (d : AreaDesc) (s : PauseState) : PauseAct → Prop
  | .activate active => active = false → s.round.listed = false
  | .finish evs _ => ∀ t o n, .parse t o n ∈ evs → ShortIn d s.node.mem o n
  | _ => True

/-- RO payload and version are the same in both states. -/
def SamePublished (d : AreaDesc) (s s' : PauseState) : Prop :=
  (∀ x, d.Payload x → s'.node.mem.ro x = s.node.mem.ro x) ∧
  s'.node.mem.ro (d.h+offVersion) = s.node.mem.ro (d.h+offVersion)

structure PauseInv (d : AreaDesc) (s : PauseState) : Prop where
  owner : OwnerInv d s.owner
  active : s.flags.active = true
  /-- the area is not on a job list while it is asleep -/
  unlisted : s.flags.sleeping = true → s.round.listed = false

section
variable {d : AreaDesc} {n : OwnerNode} {timeUs : ℕ}

theorem OwnerInv.publish {l : List Range} (h : OwnerInv d ⟨n.mem, l⟩) :
    OwnerInv d ⟨(n.publish d timeUs).mem, l⟩ := by
  refine ⟨?_, h.logged, h.lists⟩
  intro x hx hb
  obtain ⟨h1, h2⟩ := publish_payload n timeUs hx
  simp only [h1, h2]
  exact h.clean x hx hb

/-- A completed sync, with the publication of the version. -/
theorem OwnerInv.internal (hd : d.Wf) {l : List Range} (h : OwnerInv d ⟨n.mem, l⟩)
    (evs : List SyncEvent) (hev : Completes d evs) (timeUs : ℕ)
    (hshort : ∀ t o k, .parse t o k ∈ evs → ShortIn d n.mem o k) :
    OwnerInv d ⟨(n.internal d evs timeUs).mem, []⟩ ∧
    ∀ x, d.Payload x → (n.internal d evs timeUs).mem.ro x = n.mem.rw x := by
  obtain ⟨hinv, hro⟩ := h.sync_short hd true evs hev hshort
  unfold OwnerNode.internal
  split_ifs
  · refine ⟨hinv.publish (n := { n with mem := syncEvents d true n.mem evs }), ?_⟩
    intro x hx
    rw [(publish_payload _ _ hx).1]
    exact hro x hx
  · exact ⟨hinv, hro⟩

end

theorem tasvirAreaActivate_sleeping (f : AreaFlags) (active : Bool) (hf : f.active = true) :
    (tasvirAreaActivate f true active).sleeping = !active ∧
    (tasvirAreaActivate f true active).active = true := by
  obtain ⟨a, e, sl⟩ := f
  simp only at hf
  subst hf
  cases active <;> cases sl <;> exact ⟨rfl, rfl⟩

theorem PauseInv.step {d : AreaDesc} (hd : d.Wf) {s : PauseState} (h : PauseInv d s)
    (a : PauseAct) (hp : s.pre d a) (hc : s.unlisted d a) : PauseInv d (s.next d a) := by
  cases a with
  | update ops => exact { h with owner := h.owner.update hd ops hp.2 }
  | activate active =>
    obtain ⟨hsleep, hact⟩ := tasvirAreaActivate_sleeping s.flags active h.active
    refine { h with active := hact, unlisted := ?_ }
    intro hs
    simp only [PauseState.next] at hs
    rw [hsleep, Bool.not_eq_true'] at hs
    exact hc hs
  | visit =>
    refine { h with unlisted := ?_ }
    intro hs
    have hs : s.flags.sleeping = true := hs
    simp only [PauseState.next, Round.listed, AreaFlags.skipped, hs, Bool.or_true, Bool.not_true]
  | enter => exact { h with unlisted := h.unlisted }
  | failedBarrier => exact { h with unlisted := fun _ => rfl }
  | finish evs timeUs =>
    simp only [PauseState.next]
    split_ifs with hl
    · exact ⟨(h.owner.internal hd evs hp.2 timeUs hc).1, h.active, fun _ => rfl⟩
    · exact { h with unlisted := fun _ => rfl }

theorem pauseInv_reachable {d : AreaDesc} (hd : d.Wf) {s : PauseState}
    (h : ((pauseSystem d).restrict (PauseState.unlisted d)).Reachable s) : PauseInv d s := by
  apply h.invariant
  · intro s hs
    refine ⟨?_, by rw [hs.flags], ?_⟩
    · refine ⟨fun x hx _ => hs.owner.copies x hx, ?_, hs.owner.lists⟩
      intro l hl
      simp [hs.owner.log l hl, hs.owner.logged]
    · rw [hs.round]
      exact fun _ => rfl
  · intro s a hs hp
    exact hs.step hd a hp.1 hp.2

/-- Only the end of a round that lists the area can change what is published. -/
theorem samePublished_or_finish (d : AreaDesc) (s : PauseState) (a : PauseAct) :
    SamePublished d s (s.next d a) ∨
      ∃ evs timeUs, a = .finish evs timeUs ∧ s.round.listed = true := by
  cases a with
  | update ops =>
    obtain ⟨hro, -⟩ := ops_frame (d := d) ops s.node.mem
    left
    simp only [SamePublished, PauseState.next, hro, implies_true, and_self]
  | activate | visit | enter | failedBarrier => exact Or.inl ⟨fun _ _ => rfl, rfl⟩
  | finish evs timeUs =>
    cases hl : s.round.listed
    · left
      simp only [PauseState.next, hl, Bool.false_eq_true, ↓reduceIte]
      exact ⟨fun _ _ => rfl, rfl⟩
    · exact Or.inr ⟨evs, timeUs, rfl, rfl⟩

/-- A deactivated area is not published, in every run in which the owner
deactivates it only while no pending round lists it. The flag follows the calls
of `tasvir_area_activate`; while it is set no step changes the RO payload or the
version; and a step that does change them publishes the whole RW payload, so all
writes made in between become visible together. -/
theorem deactivated_area_not_published (d : AreaDesc) (hd : d.Wf) (s : PauseState)
    (h : ((pauseSystem d).restrict (PauseState.unlisted d)).Reachable s) (a : PauseAct)
    (hp : ((pauseSystem d).restrict (PauseState.unlisted d)).pre s a) :
    ((∀ active, a = .activate active → (s.next d a).flags.sleeping = !active) ∧
      ((∀ active, a ≠ .activate active) → (s.next d a).flags = s.flags)) ∧
    (s.flags.sleeping = true → SamePublished d s (s.next d a)) ∧
    (¬SamePublished d s (s.next d a) → s.flags.sleeping = false ∧
      ∀ x, d.Payload x → (s.next d a).node.mem.ro x = s.node.mem.rw x) := by
  have hi := pauseInv_reachable hd h
  refine ⟨⟨?_, ?_⟩, ?_, ?_⟩
  · rintro active rfl
    exact (tasvirAreaActivate_sleeping s.flags active hi.active).1
  · intro hne
    cases a with
    | activate active => exact absurd rfl (hne active)
    | update | visit | enter | failedBarrier => rfl
    | finish evs timeUs =>
      simp only [PauseState.next]
      split_ifs <;> rfl
  · intro hs
    rcases samePublished_or_finish d s a with hsame | ⟨evs, timeUs, -, hl⟩
    · exact hsame
    · rw [hi.unlisted hs] at hl
      exact Bool.noConfusion hl
  · intro hne
    rcases samePublished_or_finish d s a with hsame | ⟨evs, timeUs, rfl, hl⟩
    · exact absurd hsame hne
    · constructor
      · rw [← Bool.not_eq_true]
        intro hs
        rw [hi.unlisted hs] at hl
        exact Bool.noConfusion hl
      · intro x hx
        simp only [PauseState.next, hl, ↓reduceIte]
        exact (hi.owner.internal hd evs hp.1.2 timeUs hp.2).2 x hx

/-- A node with a fresh area. -/
def quietNode : OwnerNode :=
  { mem := zeroMem, info := fun _ => {}, lastSyncExtUs := 0, sleeping := false, tx := {} }

theorem quietNode_fresh : PauseState.Fresh smallArea ⟨quietNode, [], {}, .idle⟩ :=
  ⟨zeroMem_fresh smallArea, rfl, rfl⟩

/-- The defect: the walk lists the area, the owner then deactivates it and makes
a write, and the round that is already under way publishes the write. -/
theorem listed_area_published_asleep :
    ∃ s, (pauseSystem smallArea).Reachable s ∧ s.flags.sleeping = true ∧
      ∃ a, (pauseSystem smallArea).pre s a ∧ ¬SamePublished smallArea s (s.next smallArea a) := by
  let ops : List OwnerOp := [.write 1344 [7], .log (1344, 1)]
  let s : PauseState := ⟨{ quietNode with mem := zeroMem.ops smallArea ops }, [] ++ logsOf ops,
    { sleeping := true }, .entered true⟩
  have hreach : (pauseSystem smallArea).Reachable s := by
    have h0 : (pauseSystem smallArea).Reachable ⟨quietNode, [], {}, .idle⟩ := .init quietNode_fresh
    exact h0.run [.visit, .activate false, .update ops, .enter]
      ⟨rfl, fun b hb => Round.noConfusion hb,
        ⟨fun b hb => Round.noConfusion hb, firstByte_allowed _⟩, ⟨true, rfl⟩, trivial⟩
  have hev := completes_whole smallArea smallArea_wf (by norm_num [smallArea])
  refine ⟨s, hreach, rfl, .finish _ 5, ⟨fun hb => Round.noConfusion hb, hev⟩, ?_⟩
  intro hsame
  have hx : smallArea.Payload (32768+1344) :=
    ⟨by norm_num [sizeofHeader, smallArea], by norm_num [smallArea]⟩
  have hfresh := zeroMem_fresh smallArea
  have hinv : OwnerInv smallArea ⟨zeroMem, []⟩ := by
    refine ⟨fun x hx _ => hfresh.copies x hx, ?_, hfresh.lists⟩
    intro l hl
    simp [hfresh.log l hl]
  have hsync := (hinv.update smallArea_wf ops (firstByte_allowed _)).internal
    (n := { quietNode with mem := zeroMem.ops smallArea ops }) smallArea_wf _ hev 5 (by
      intro t o n hx
      exact shortIn_of_lt _ _ (hev.aligned t o n hx).1
        (hev.smallChunks (by norm_num [smallArea]) t o n hx))
  have hnew := hsync.2 _ hx
  have hold : s.node.mem.ro (32768+1344) = 0 := by
    rw [show s.node.mem = zeroMem.ops smallArea ops from rfl, (ops_frame ops zeroMem).1]
    rfl
  have hsame' := hsame.1 _ hx
  rw [hold] at hsame'
  change (OwnerNode.internal smallArea _ 5 _).mem.ro (32768+1344) = 0 at hsame'
  rw [hnew] at hsame'
  have hwritten : (zeroMem.ops smallArea ops).rw (32768+1344) = 7 := by
    have hops : zeroMem.ops smallArea ops =
        (zeroMem.write smallArea 1344 [7]).logRange smallArea (1344, 1) := rfl
    rw [hops, (NodeMem.logRange_frame ..).2.1]
    simp [NodeMem.write, smallArea]
  rw [hwritten] at hsame'
  exact absurd hsame' (by norm_num)

/-- Deactivated while no round is under way, the area sleeps through the next one. -/
theorem deactivated_area_not_published_between :
    ∃ s, ((pauseSystem smallArea).restrict (PauseState.unlisted smallArea)).Reachable s ∧
      s.flags.sleeping = true ∧ s.round = .entered false ∧
      SamePublished smallArea s (s.next smallArea (.finish [.parse 0 0 32768, .process 0] 5)) := by
  let ops : List OwnerOp := [.write 1344 [7], .log (1344, 1)]
  have h0 : ((pauseSystem smallArea).restrict (PauseState.unlisted smallArea)).Reachable
      ⟨quietNode, [], {}, .idle⟩ := .init quietNode_fresh
  have hreach := h0.run [.activate false, .update ops, .visit, .enter]
    ⟨⟨fun b hb => Round.noConfusion hb, fun _ => rfl⟩,
      ⟨⟨fun b hb => Round.noConfusion hb, firstByte_allowed _⟩, trivial⟩, ⟨rfl, trivial⟩,
      ⟨⟨false, rfl⟩, trivial⟩, trivial⟩
  have hev := completes_whole smallArea smallArea_wf (by norm_num [smallArea])
  obtain ⟨-, hsame, -⟩ := deactivated_area_not_published smallArea smallArea_wf _ hreach
    (.finish [.parse 0 0 32768, .process 0] 5) ⟨⟨fun hb => Round.noConfusion hb, hev⟩, by
      intro t o n hx
      exact shortIn_of_lt _ _ (hev.aligned t o n hx).1
        (hev.smallChunks (by norm_num [smallArea]) t o n hx)⟩
  exact ⟨_, hreach, rfl, rfl, hsame rfl⟩

end Tasvir
