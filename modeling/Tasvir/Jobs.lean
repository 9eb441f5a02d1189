import Mathlib.Tactic
import Tasvir.CoopSync
import Tasvir.Deactivate
import Tasvir.GuardedWalk
import Tasvir.ThreadTable

/-! The job list of an internal sync and the threads that take part in it: which
of them are willing to process a job and to finish it. -/
namespace Tasvir
open GuardedWalk Machine

/-- TASVIR_NR_SYNC_JOBS. -/
def nrSyncJobs : ℕ := 2048

/-- `d->owner`: NULL, the thread in a slot of this node, or one of another node. -/
inductive AreaOwner
  | null
  | here (slot : ℕ)
  | away
deriving DecidableEq, Repr

def AreaOwner.slot : AreaOwner → Option ℕ
  | .here t => some t
  | _ => none

/-- What the scheduler and the jobs read of an area. -/
structure JobArea where
  d : AreaDesc
  owner : AreaOwner
  hasHeader : Bool
  /-- flags of the RW header -/
  flags : AreaFlags
  /-- TASVIR_AREA_FLAG_LOCAL -/
  isLocal : Bool

/-- `tasvir_area_is_active_local`. -/
def JobArea.isActiveLocal (a : JobArea) : Bool := a.owner ≠ .null && a.hasHeader && a.flags.active

/-- `tasvir_sched_sync_internal_area` as far as the job list goes; it aborts when
the list is full. -/
def schedArea (area : ℕ → JobArea) (jobs : Option (List ℕ)) (i : ℕ) : Option (List ℕ) × ℕ :=
  match jobs with
  | none => (none, 0)
  | some js =>
    if (area i).flags.skipped then (some js, 0)
    else if js.length ≥ nrSyncJobs then (none, 0)
    else (some (js ++ [i]), 1)

/-- The test in `tasvir_sync_internal_job` that thread `t` has to pass. -/
def CoopEnv.willing (e : CoopEnv) (t : ℕ) : Bool := !(e.selfSync && !e.isLocalWriter t)

/-- `tasvir_sync_internal_job_postprocess`: only the daemon waits for stage 3. -/
def CoopEnv.postprocess (e : CoopEnv) (t : ℕ) (j : SyncJob) : SyncJob × Bool :=
  if j.doneStage3 then (j, true)
  else if e.isLocalWriter t then ({ j with doneStage3 := true }, true)
  else (j, decide (t ≠ 0))

/-- The thread table with its processes, the areas, and what a round leaves in
the node data. `tree` has all areas that the run ever has; one without an owner
does not exist yet. -/
structure JobState where
  slots : SlotState
  tree : Rose ℕ
  area : ℕ → JobArea
  jobs : List ℕ := []
  jobBytes : ℕ := 0
  barrierSeq : ℕ := 0
  nextSyncSeq : ℕ → ℕ := fun _ => 0

inductive JobAct
  /-- threads come, go to sleep and wake up; the first loop of
  `tasvir_sched_sync_internal` serves their requests and kills the dead ones -/
  | slot (a : SlotAct)
  /-- `tasvir_new` by the thread in slot `t` -/
  | create (i t : ℕ) (d : AreaDesc)
  /-- the descriptor of an area of another node arrives -/
  | appear (i : ℕ) (d : AreaDesc)
  /-- a memory message of the area, the last one of its version or not -/
  | arrive (i : ℕ) (last : Bool)
  /-- the owner calls `tasvir_area_activate` -/
  | activate (i : ℕ) (active : Bool)
  /-- parts of `tasvir_update_owner` -/
  | setLocal (i : ℕ) (isLocal : Bool)
  | setOwner (i : ℕ) (owner : AreaOwner)
  /-- the rest of `tasvir_sched_sync_internal`, after a first loop that has
  counted `nrThreads` -/
  | sched (nrThreads seq : ℕ)

namespace JobState

/-- The areas the walk puts on the job list. -/
def listed (s : JobState) : List ℕ :=
  (s.tree.visited fun i => (s.area i).isActiveLocal).filter fun i => !(s.area i).flags.skipped

def walk (s : JobState) : Option (List ℕ) :=
  (s.tree.walk (fun i => (s.area i).isActiveLocal) (schedArea s.area) (some [])).1

/-- The slot takes part in a round that is scheduled now. -/
def running (s : JobState) (t : ℕ) : Prop :=
  t < nrThreadsLocal ∧ (s.slots.table.tdata t).state = .running

instance (s : JobState) (t : ℕ) : Decidable (s.running t) := inferInstanceAs (Decidable (_ ∧ _))

def setArea (s : JobState) (i : ℕ) (a : JobArea) : JobState :=
  { s with area := Function.update s.area i a }

/-- Sequence numbers grow. An abort over a full job list ends the run. -/
def pre (s : JobState) : JobAct → Prop
  | .slot a => s.slots.pre a
  | .create i t _ => (s.area i).owner = .null ∧ s.running t
  | .appear i _ => (s.area i).owner = .null
  | .sched _ seq => s.walk.isSome = true ∧ ∀ t, s.nextSyncSeq t < seq
  | _ => True

def next (s : JobState) : JobAct → JobState
  | .slot a => { s with slots := s.slots.next a }
  | .create i t d => s.setArea i ⟨d, .here t, true, {}, true⟩
  | .appear i d => s.setArea i ⟨d, .away, true, { active := false }, false⟩
  | .arrive i last =>
    let a := s.area i
    s.setArea i { a with
      flags := { a.flags with extPending := !last, active := a.flags.active || last } }
  | .activate i active =>
    let a := s.area i
    s.setArea i { a with flags := tasvirAreaActivate a.flags true active }
  | .setLocal i isLocal => s.setArea i { s.area i with isLocal }
  | .setOwner i owner => s.setArea i { s.area i with owner }
  | .sched nrThreads seq =>
    let js := s.walk.getD []
    { s with
      jobs := js
      jobBytes := Tasvir.jobBytes (js.map fun i => (s.area i).d) nrThreads
      barrierSeq := seq
      -- the second loop gives the number to the running threads only
      nextSyncSeq := fun t => if s.running t then seq else s.nextSyncSeq t }

/-- What a participant reads of job `i`. -/
def env (s : JobState) (i : ℕ) : CoopEnv :=
  ⟨(s.area i).d, (s.area i).isLocal, (s.area i).owner.slot, s.jobBytes, 0⟩

/-- Among the threads given `seq` there is one that processes the job, and if it
brings changes one that sets `done_stage3`. -/
structure Completable (s : JobState) (seq : ℕ) (changes : Bool) (i : ℕ) : Prop where
  processed : ∃ t, s.nextSyncSeq t = seq ∧ (s.env i).willing t = true
  finished : changes = true →
    ∃ t, s.nextSyncSeq t = seq ∧ ((s.env i).postprocess t {}).1.doneStage3 = true

/-- The owner is a running thread of this node, or the area is not local and the
daemon is running, or the area is large and without changes and any thread is. -/
def Served (s : JobState) (changes : Bool) (i : ℕ) : Prop :=
  (∃ t, (s.area i).owner = .here t ∧ s.running t) ∨
  ((s.area i).isLocal = false ∧ s.running 0) ∨
  ((s.env i).selfSync = false ∧ changes = false ∧ ∃ t, s.running t)

end JobState

/-- A node whose daemon has booted; nothing is on the job list. -/
def jobSystem : System JobState JobAct where
  init s := slotSystem.init s.slots ∧ (∀ i, (s.area i).owner = .null) ∧ s.jobs = []
  pre := JobState.pre
  next := JobState.next

/-- The loop that the walk is: unless it aborts, the list grows by every area that
is not skipped. -/
theorem foldl_schedArea (area : ℕ → JobArea) (is : List ℕ) (js js' : List ℕ)
    (h : is.foldl (fun s i => (schedArea area s i).1) (some js) = some js') :
    js' = js ++ is.filter fun i => !(area i).flags.skipped := by
  have hnone (is : List ℕ) : is.foldl (fun s i => (schedArea area s i).1) none = none := by
    induction is with
    | nil => rfl
    | cons i is ih => exact ih
  induction is generalizing js with
  | nil =>
    rw [List.filter_nil, List.append_nil]
    exact (Option.some.inj h).symm
  | cons i is ih =>
    rw [List.foldl_cons, schedArea] at h
    rw [List.filter_cons]
    cases hs : (area i).flags.skipped
    · simp only [hs, Bool.false_eq_true, ↓reduceIte] at h
      split_ifs at h
      · rw [hnone] at h
        exact absurd h (by simp)
      · rw [ih _ h, List.append_assoc]
        rfl
    · simp only [hs, ↓reduceIte] at h
      exact ih js h

section
variable {s : JobState}

theorem JobState.walk_listed (h : s.walk.isSome = true) : s.walk.getD [] = s.listed := by
  obtain ⟨js, hjs⟩ := Option.isSome_iff_exists.mp h
  have hstate : s.walk = (s.tree.visited fun i => (s.area i).isActiveLocal).foldl
      (fun js i => (schedArea s.area js i).1) (some []) := Rose.walk_state _ _ _ _
  rw [hjs, Option.getD_some]
  rw [hjs] at hstate
  exact foldl_schedArea s.area _ [] js hstate.symm

/-- The threads that the second loop gives the number to. -/
theorem JobState.given_iff (nrThreads seq t : ℕ) (h : ∀ t, s.nextSyncSeq t < seq) :
    (s.next (.sched nrThreads seq)).nextSyncSeq t = seq ↔ s.running t := by
  have hlt := h t
  simp only [JobState.next]
  split_ifs with hr
  · exact iff_of_true rfl hr
  · exact iff_of_false (Nat.ne_of_lt hlt) hr

theorem CoopEnv.postprocess_sets (e : CoopEnv) (t : ℕ) :
    (e.postprocess t {}).1.doneStage3 = e.isLocalWriter t := by
  unfold CoopEnv.postprocess
  cases e.isLocalWriter t <;> rfl

/-- The local writers of a job among the running threads. -/
theorem JobState.writer_iff (i : ℕ) :
    (∃ t, s.running t ∧ (s.env i).isLocalWriter t = true) ↔
      (∃ t, (s.area i).owner = .here t ∧ s.running t) ∨
      ((s.area i).isLocal = false ∧ s.running 0) := by
  have hslot (t : ℕ) : (s.area i).owner.slot = some t ↔ (s.area i).owner = .here t := by
    cases (s.area i).owner <;> simp [AreaOwner.slot]
  simp only [CoopEnv.isLocalWriter, JobState.env, hslot, decide_eq_true_iff]
  constructor
  · rintro ⟨t, hr, ho | ⟨rfl, hl⟩⟩
    · exact Or.inl ⟨t, ho, hr⟩
    · exact Or.inr ⟨hl, hr⟩
  · rintro (⟨t, ho, hr⟩ | ⟨hl, hr⟩)
    · exact ⟨t, hr, Or.inl ho⟩
    · exact ⟨0, hr, Or.inr ⟨rfl, hl⟩⟩

/-- One job of a round. -/
theorem JobState.completable_iff (nrThreads seq : ℕ) (changes : Bool) (i : ℕ)
    (h : ∀ t, s.nextSyncSeq t < seq) :
    (s.next (.sched nrThreads seq)).Completable seq changes i ↔ s.Served changes i := by
  have hwriter := s.writer_iff i
  have hpart : (s.next (.sched nrThreads seq)).Completable seq changes i ↔
      (∃ t, s.running t ∧ ((s.env i).selfSync = false ∨ (s.env i).isLocalWriter t = true)) ∧
      (changes = true → ∃ t, s.running t ∧ (s.env i).isLocalWriter t = true) := by
    constructor
    · rintro ⟨⟨t, hg, hw⟩, hfin⟩
      rw [JobState.given_iff _ _ _ h] at hg
      refine ⟨⟨t, hg, ?_⟩, fun hc => ?_⟩
      · rw [CoopEnv.willing, Bool.not_eq_true', Bool.and_eq_false_iff, Bool.not_eq_false'] at hw
        exact hw
      · obtain ⟨t', hg', hs⟩ := hfin hc
        rw [JobState.given_iff _ _ _ h] at hg'
        rw [CoopEnv.postprocess_sets] at hs
        exact ⟨t', hg', hs⟩
    · rintro ⟨⟨t, hr, hw⟩, hfin⟩
      refine ⟨⟨t, (JobState.given_iff _ _ _ h).mpr hr, ?_⟩, fun hc => ?_⟩
      · rw [CoopEnv.willing, Bool.not_eq_true', Bool.and_eq_false_iff, Bool.not_eq_false']
        exact hw
      · obtain ⟨t', hr', hs⟩ := hfin hc
        refine ⟨t', (JobState.given_iff _ _ _ h).mpr hr', ?_⟩
        rw [CoopEnv.postprocess_sets]
        exact hs
  rw [hpart]
  constructor
  · rintro ⟨⟨t, hr, hw⟩, hfin⟩
    by_cases hex : ∃ t, s.running t ∧ (s.env i).isLocalWriter t = true
    · rcases hwriter.mp hex with ho | hl
      · exact Or.inl ho
      · exact Or.inr (Or.inl hl)
    · -- without a local writer only a job without changes can be completed
      refine Or.inr (Or.inr ⟨?_, ?_, t, hr⟩)
      · rcases hw with hw | hw
        · exact hw
        · exact absurd ⟨t, hr, hw⟩ hex
      · rw [← Bool.not_eq_true]
        exact fun hc => hex (hfin hc)
  · rintro (ho | hl | ⟨hs, hc, t, hr⟩)
    · obtain ⟨t, hr, hw⟩ := hwriter.mpr (Or.inl ho)
      exact ⟨⟨t, hr, Or.inr hw⟩, fun _ => ⟨t, hr, hw⟩⟩
    · obtain ⟨t, hr, hw⟩ := hwriter.mpr (Or.inr hl)
      exact ⟨⟨t, hr, Or.inr hw⟩, fun _ => ⟨t, hr, hw⟩⟩
    · refine ⟨⟨t, hr, Or.inl hs⟩, fun hf => ?_⟩
      rw [hc] at hf
      exact Bool.noConfusion hf

end

/-- Threads that are not willing to process a job leave it as it is for ever. -/
theorem unwilling_stuck (e : CoopEnv) (s : CoopState) (ts : List ℕ)
    (hout : ∀ t ∈ ts, s.pc t = .out) (hdone : s.job.doneStage2 = false)
    (hw : ∀ t ∈ ts, e.willing t = false) : ts.foldl (CoopState.step e) s = s := by
  induction ts with
  | nil => rfl
  | cons t ts ih =>
    have hstep : s.step e t = s := by
      have hwt := hw t List.mem_cons_self
      rw [CoopEnv.willing, Bool.not_eq_false'] at hwt
      rw [CoopState.step, hout t List.mem_cons_self]
      simp only [hdone, Bool.false_eq_true, ↓reduceIte, hwt]
    rw [List.foldl_cons, hstep]
    exact ih (fun t' h => hout t' (List.mem_cons_of_mem _ h))
      (fun t' h => hw t' (List.mem_cons_of_mem _ h))

/-- From any state a round can complete all its jobs exactly when every area that
the walk lists is served. -/
theorem jobs_completable_iff (s : JobState) (nrThreads seq : ℕ) (hp : s.pre (.sched nrThreads seq))
    (changes : ℕ → Bool) :
    (∀ i ∈ (s.next (.sched nrThreads seq)).jobs,
      (s.next (.sched nrThreads seq)).Completable seq (changes i) i) ↔
    ∀ i ∈ s.listed, s.Served (changes i) i := by
  obtain ⟨hsome, hseq⟩ := hp
  have hjobs : (s.next (.sched nrThreads seq)).jobs = s.listed := s.walk_listed hsome
  rw [hjobs]
  exact forall₂_congr fun i _ => s.completable_iff nrThreads seq (changes i) i hseq

/-- A root node with its daemon, and room for one area below the root area. -/
def newNode : JobState where
  slots := .booted 1
  tree := .node 0 [.node 1 []]
  area := fun _ => ⟨smallArea, .null, false, {}, false⟩

theorem newNode_reachable : jobSystem.Reachable newNode :=
  .init ⟨⟨1, by decide, rfl⟩, fun _ => rfl, rfl⟩

/-- The daemon has created the root area. -/
def rootNode : JobState := newNode.setArea 0 ⟨⟨0, 32768, true⟩, .here 0, true, {}, true⟩

theorem rootNode_reachable : jobSystem.Reachable rootNode :=
  newNode_reachable.step (a := JobAct.create 0 0 ⟨0, 32768, true⟩) ⟨rfl, by decide, rfl⟩

/-- Steps of the thread table. -/
theorem slots_run {s : JobState} (h : jobSystem.Reachable s) (as : List SlotAct)
    (he : slotSystem.Enabled s.slots as) :
    jobSystem.Reachable { s with slots := slotSystem.run s.slots as } := by
  induction as generalizing s with
  | nil => exact h
  | cons a as ih => exact ih (h.step (a := JobAct.slot a) he.1) he.2

/-- A process joins as the thread in slot 1. -/
def joinActs : List SlotAct :=
  [.start 2, .askThread 2, .initThread 2 (true, true), .takeThread 2 1, .askFinish 2 1,
    .initFinish 2 1, .finished 2]

/-- The thread has created a small area. -/
def joinedNode : JobState :=
  { rootNode.setArea 1 ⟨smallArea, .here 1, true, {}, true⟩ with
    slots := slotSystem.run (.booted 1) joinActs }

theorem joinedNode_reachable : jobSystem.Reachable joinedNode := by
  have hjoined := slots_run rootNode_reachable joinActs (by decide +kernel)
  exact hjoined.step (a := JobAct.create 1 1 smallArea) ⟨rfl, by decide, by decide +kernel⟩

/-- The daemon and the thread each process their own area. -/
theorem jobs_completable_joined :
    ∃ s : JobState, jobSystem.Reachable s ∧ (s.next (.sched 2 1)).jobs = [0, 1] ∧
      ∀ i ∈ (s.next (.sched 2 1)).jobs, (s.next (.sched 2 1)).Completable 1 true i := by
  refine ⟨joinedNode, joinedNode_reachable, rfl, ?_⟩
  apply (jobs_completable_iff _ 2 1 ⟨rfl, fun _ => Nat.one_pos⟩ fun _ => true).mpr
  intro i hi
  have hrunning : joinedNode.running 0 ∧ joinedNode.running 1 := by decide +kernel
  rcases List.mem_cons.mp (show i ∈ [0, 1] from hi) with rfl | hi
  · exact Or.inl ⟨0, rfl, hrunning.1⟩
  · rw [List.mem_singleton.mp hi]
    exact Or.inl ⟨1, rfl, hrunning.2⟩

/-- It has called `tasvir_activate(false)`, and the daemon serves the request. -/
def sleepActs : List SlotAct := [.activate 2 1 false, .handOver 0, .handOver 1]

/-- The thread has gone to sleep. -/
def sleepyNode : JobState :=
  { joinedNode with slots := slotSystem.run joinedNode.slots sleepActs }

theorem sleepyNode_reachable : jobSystem.Reachable sleepyNode :=
  slots_run joinedNode_reachable sleepActs (by decide +kernel)

theorem sleepyNode_running (t : ℕ) (h : sleepyNode.running t) : t = 0 := by
  have hall : ∀ t < nrThreadsLocal, (sleepyNode.slots.table.tdata t).state = .running → t = 0 := by
    decide +kernel
  exact hall t h.1 h.2

/-- A thread joins, creates a small area and calls `tasvir_activate(false)`. The
next round lists the area, no thread that is given the number is willing to
process the job, and whatever they do in the loop of `tasvir_sync_internal`
leaves it undone. -/
theorem sleeping_owner_blocks_round :
    jobSystem.Reachable sleepyNode ∧ sleepyNode.pre (.sched 1 1) ∧
    1 ∈ (sleepyNode.next (.sched 1 1)).jobs ∧
    ¬(sleepyNode.next (.sched 1 1)).Completable 1 true 1 ∧
    ∀ (c : CoopState) (ts : List ℕ),
      (∀ t ∈ ts, (sleepyNode.next (.sched 1 1)).nextSyncSeq t = 1) →
      (∀ t ∈ ts, c.pc t = .out) → c.job.doneStage2 = false →
      ts.foldl (CoopState.step ((sleepyNode.next (.sched 1 1)).env 1)) c = c := by
  have hseq : ∀ t, sleepyNode.nextSyncSeq t < 1 := fun _ => Nat.one_pos
  have hunwilling : ∀ t, (sleepyNode.next (.sched 1 1)).nextSyncSeq t = 1 →
      ((sleepyNode.next (.sched 1 1)).env 1).willing t = false := by
    intro t ht
    rw [sleepyNode_running t ((JobState.given_iff 1 1 t hseq).mp ht)]
    decide
  refine ⟨sleepyNode_reachable, ⟨rfl, hseq⟩, List.mem_cons_of_mem _ (List.mem_singleton.mpr rfl),
    ?_, ?_⟩
  · rintro ⟨⟨t, ht, hw⟩, -⟩
    rw [hunwilling t ht] at hw
    exact Bool.noConfusion hw
  · intro c ts hts hout hdone
    exact unwilling_stuck _ c ts hout hdone fun t ht => hunwilling t (hts t ht)

end Tasvir
