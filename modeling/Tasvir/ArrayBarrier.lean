import Mathlib.Tactic
import Tasvir.Machine

/-! `tasvir::Array`: the workers of an array, from `Allocate` through any number of calls of
`Barrier`. Worker 0's object is also the parent of the array. -/
namespace Tasvir
open Machine

/-- What a look-up by name can find: the area of a worker of this array, or another area. -/
inductive ArrayRef
  | worker (w : ℕ)
  | foreign
deriving DecidableEq, Repr

/-- The fields of an `Array` object; the memory of a new area is zero. -/
structure ArrayObj where
  nrWorkers : ℕ := 0
  version : ℕ := 0
  versionDone : ℕ := 0
  /-- `_initialized == 0xdeadbeef` -/
  initialized : Bool := false
  parent : Option ArrayRef := none
  workers : ℕ → Option ArrayRef := fun _ => none

/-- Where a worker is; every one of these places serves Tasvir. -/
inductive ArrayPc
  /-- before `Allocate` -/
  | absent
  /-- in `tasvir_attach_wait`, of worker number `i` or of the parent -/
  | attach (i : ℕ)
  /-- waiting for the attached object to be initialized -/
  | check (i : ℕ) (r : ArrayRef)
  /-- worker 0 has set its own sentinel -/
  | synced
  /-- in `Barrier`, behind the assignment to `_version_done` -/
  | entered
  /-- worker 0 waits for worker number `j` -/
  | collect (j : ℕ)
  /-- blocked until the parent changes version -/
  | await
  /-- behind a call of `Barrier` -/
  | out
  /-- `Allocate` has returned NULL -/
  | failed
deriving DecidableEq

/-- `found w i` is the result of worker `w`'s look-up number `i`. The code formats `name`
from itself without ever setting it, so it does not determine what is found. -/
structure ArrayConfig where
  nrWorkers : ℕ
  two_le : 2 ≤ nrWorkers
  found : ℕ → ℕ → Option ArrayRef
  found_lt : ∀ w i v, found w i = some (.worker v) → v < nrWorkers

/-- A worker has its own object as it is, and version `view` of each other worker's among
those published so far. -/
structure ArrayState where
  obj : ℕ → ArrayObj := fun _ => {}
  published : ℕ → ℕ → ArrayObj := fun _ _ => {}
  newest : ℕ → ℕ := fun _ => 0
  view : ℕ → ℕ → ℕ := fun _ _ => 0
  pc : ℕ → ArrayPc := fun _ => .absent
  /-- calls of `Barrier` entered and returned from -/
  entered : ℕ → ℕ := fun _ => 0
  returned : ℕ → ℕ := fun _ => 0

/-- A value read from a foreign area comes with the action. -/
inductive ArrayAct
  | allocate (w : ℕ)
  /-- `tasvir_new` or `tasvir_attach_wait` returns NULL -/
  | giveUp (w : ℕ)
  | attach (w : ℕ)
  | check (w : ℕ) (f : ArrayObj)
  | start
  | proceed (w : ℕ)
  | collect (f : ArrayObj)
  | bump
  | leave (w : ℕ) (f : ArrayObj)
  | again (w : ℕ)
  /-- a sync publishes the worker's area -/
  | publish (w : ℕ)
  /-- version `k` of worker `v`'s area reaches worker `w` -/
  | refresh (w v k : ℕ)

namespace ArrayState

def read (s : ArrayState) (w v : ℕ) : ArrayObj :=
  if v = w then s.obj w else s.published v (s.view w v)

def readRef (s : ArrayState) (w : ℕ) (f : ArrayObj) : ArrayRef → ArrayObj
  | .worker v => s.read w v
  | .foreign => f

def goto (s : ArrayState) (w : ℕ) (pc : ArrayPc) : ArrayState :=
  { s with pc := Function.update s.pc w pc }

def set (s : ArrayState) (w : ℕ) (o : ArrayObj) : ArrayState :=
  { s with obj := Function.update s.obj w o }

/-- The first statements of `Barrier`. -/
def barrier (s : ArrayState) (w : ℕ) : ArrayState :=
  ({ s.set w { s.obj w with versionDone := (s.obj w).version } with
    entered := Function.update s.entered w (s.entered w+1) }).goto w .entered

/-- The end of `Allocate`: worker `w` takes `r`, which has the fields `p`, for the parent. -/
def finish (c : ArrayConfig) (s : ArrayState) (w : ℕ) (r : ArrayRef) (p : ArrayObj) : ArrayState :=
  (s.set w { s.obj w with
    parent := some r
    nrWorkers := p.nrWorkers
    workers := fun i => if i < c.nrWorkers then p.workers i else (s.obj w).workers i }).barrier w

/-- The test of the loop that `w` is in succeeds. -/
def pre (c : ArrayConfig) (s : ArrayState) : ArrayAct → Prop
  | .allocate w => w < c.nrWorkers ∧ s.pc w = .absent
  | .giveUp w => w < c.nrWorkers ∧ (s.pc w = .absent ∨ ∃ i, s.pc w = .attach i)
  | .attach w => ∃ i r, s.pc w = .attach i ∧ c.found w i = some r
  | .check w f => ∃ i r, s.pc w = .check i r ∧ (s.readRef w f r).initialized = true
  | .start => s.pc 0 = .synced
  | .proceed w => s.pc w = .entered
  | .collect f => ∃ j r, s.pc 0 = .collect j ∧ j < (s.obj 0).nrWorkers ∧
      (s.obj 0).workers j = some r ∧ (s.readRef 0 f r).versionDone = (s.obj 0).version
  | .bump => ∃ j, s.pc 0 = .collect j ∧ ¬j < (s.obj 0).nrWorkers
  | .leave w f => s.pc w = .await ∧ ∃ r, (s.obj w).parent = some r ∧
      (s.obj w).versionDone ≠ (s.readRef w f r).version
  | .again w => s.pc w = .out
  | .publish _ => True
  | .refresh w v k => s.view w v ≤ k ∧ k ≤ s.newest v

def next (c : ArrayConfig) (s : ArrayState) : ArrayAct → ArrayState
  | .allocate w =>
    -- only worker 0 leaves its sentinel for later
    (s.set w { s.obj w with
      nrWorkers := 0, version := 1, versionDone := 0
      initialized := if w = 0 then (s.obj w).initialized else true }).goto w (.attach 0)
  | .giveUp w => s.goto w .failed
  | .attach w => match s.pc w with
    | .attach i => match c.found w i with
      | some r =>
        (if w = 0 then s.set 0 { s.obj 0 with
          workers := Function.update (s.obj 0).workers i (some r) } else s).goto w (.check i r)
      | none => s
    | _ => s
  | .check w f => match s.pc w with
    | .check i r =>
      if w = 0 then
        if i+1 < c.nrWorkers then s.goto 0 (.attach (i+1))
        else (s.set 0 { s.obj 0 with initialized := true }).goto 0 .synced
      else s.finish c w r (s.readRef w f r)
    | _ => s
  | .start => s.finish c 0 (.worker 0) (s.obj 0)
  | .proceed w => s.goto w (if w = 0 then .collect 0 else .await)
  | .collect _ => match s.pc 0 with
    | .collect j => s.goto 0 (.collect (j+1))
    | _ => s
  | .bump => (s.set 0 { s.obj 0 with
      versionDone := (s.obj 0).version, version := (s.obj 0).version+1 }).goto 0 .await
  | .leave w f => match (s.obj w).parent with
    | some r =>
      ({ s.set w { s.obj w with version := (s.readRef w f r).version } with
        returned := Function.update s.returned w (s.returned w+1) }).goto w .out
    | none => s
  | .again w => s.barrier w
  | .publish w => { s with
      published := Function.update s.published w
        (Function.update (s.published w) (s.newest w+1) (s.obj w))
      newest := Function.update s.newest w (s.newest w+1) }
  | .refresh w v k => { s with
      view := Function.update s.view w (Function.update (s.view w) v k) }

end ArrayState

def arraySystem (c : ArrayConfig) : System ArrayState ArrayAct where
  init s := s = {}
  pre := ArrayState.pre c
  next := ArrayState.next c

/-- Nobody is back from call number `k` before everybody has entered call number `k`. -/
def ArrayState.Safe (c : ArrayConfig) (s : ArrayState) : Prop :=
  ∀ w v, w < c.nrWorkers → v < c.nrWorkers → s.returned w ≤ s.entered v

/-- Worker 0 gets stuck: one of its look-ups fails, or finds its own area, whose sentinel it
sets behind the loop only; and nobody takes a foreign area for the parent. -/
def ArrayConfig.Stuck (c : ArrayConfig) : Prop :=
  (∃ i < c.nrWorkers, c.found 0 i = none ∨ c.found 0 i = some (.worker 0)) ∧
  ∀ w, 0 < w → w < c.nrWorkers → c.found w 0 ≠ some .foreign

section Stuck
variable {c : ArrayConfig} {i₀ : ℕ} {s : ArrayState}

/-- Worker 0 does not get past its look-up number `i₀`. -/
def ZeroPc (c : ArrayConfig) (i₀ : ℕ) : ArrayPc → Prop
  | .absent | .failed => True
  | .attach i => i ≤ i₀
  | .check i r => i ≤ i₀ ∧ c.found 0 i = some r
  | _ => False

/-- Another worker that is in `Barrier` waits for an object with its sentinel set. -/
def OtherPc (c : ArrayConfig) (s : ArrayState) (w : ℕ) : ArrayPc → Prop
  | .absent | .failed => True
  | .attach i => w < c.nrWorkers ∧ i = 0 ∧ (s.obj w).initialized = true
  | .check i r => w < c.nrWorkers ∧ i = 0 ∧ (s.obj w).initialized = true ∧ c.found w 0 = some r
  | .entered | .await => (s.obj w).versionDone = 1 ∧
      ∃ v, (s.obj w).parent = some (.worker v) ∧ (s.read w v).initialized = true
  | _ => False

/-- Nobody returns: the objects that have their sentinel set are at version 1, and worker
0's is not among them. -/
structure ArrayInv (c : ArrayConfig) (i₀ : ℕ) (s : ArrayState) : Prop where
  quiet : ∀ w, s.returned w = 0
  zero_pc : ZeroPc c i₀ (s.pc 0)
  zero_init : (s.obj 0).initialized = false ∧ ∀ k, (s.published 0 k).initialized = false
  one : ∀ v, ((s.obj v).initialized = true → (s.obj v).version = 1) ∧
    ∀ k, (s.published v k).initialized = true → (s.published v k).version = 1
  up : ∀ v k, k ≤ s.newest v → (s.published v k).initialized = true →
    (s.obj v).initialized = true ∧
    ∀ k', k ≤ k' → k' ≤ s.newest v → (s.published v k').initialized = true
  view_le : ∀ w v, s.view w v ≤ s.newest v
  other_pc : ∀ w, w ≠ 0 → OtherPc c s w (s.pc w)

namespace ArrayInv

theorem init : ArrayInv c i₀ {} where
  quiet _ := rfl
  zero_pc := trivial
  zero_init := ⟨rfl, fun _ => rfl⟩
  one _ := ⟨fun h => absurd h (by simp), fun _ h => absurd h (by simp)⟩
  up _ _ _ h := absurd h (by simp)
  view_le _ _ := le_rfl
  other_pc _ _ := trivial

/-- What a worker reads is at version 1 once its sentinel is set. -/
theorem read_one (h : ArrayInv c i₀ s) (w v : ℕ) (hr : (s.read w v).initialized = true) :
    (s.read w v).version = 1 := by
  unfold ArrayState.read at hr ⊢
  split_ifs at hr ⊢ with hv
  · exact (h.one w).1 hr
  · exact (h.one v).2 _ hr

/-- Worker 0's sentinel is not seen. -/
theorem read_zero (h : ArrayInv c i₀ s) (w : ℕ) : (s.read w 0).initialized = false := by
  unfold ArrayState.read
  split_ifs with hw
  · rw [← hw]
    exact h.zero_init.1
  · exact h.zero_init.2 _

/-- Worker `a` changes its own object to `o` and goes on to `pc`. -/
theorem worker (h : ArrayInv c i₀ s) {a : ℕ} {o : ArrayObj} {pc : ArrayPc} {s' : ArrayState}
    (hs : s'.obj = Function.update s.obj a o ∧ s'.pc = Function.update s.pc a pc ∧
      s'.published = s.published ∧ s'.newest = s.newest ∧ s'.view = s.view ∧
      s'.returned = s.returned)
    (hone : o.initialized = true → o.version = 1)
    (hup : (s.obj a).initialized = true → o.initialized = true)
    (hzero : a = 0 → o.initialized = false ∧ ZeroPc c i₀ pc)
    (hother : a ≠ 0 → OtherPc c s' a pc) : ArrayInv c i₀ s' := by
  obtain ⟨hobj, hpc, hpub, hnew, hview, hret⟩ := hs
  have hobj_ne (w : ℕ) (hw : w ≠ a) : s'.obj w = s.obj w := by
    rw [hobj, Function.update_of_ne hw]
  have hobj_a : s'.obj a = o := by rw [hobj, Function.update_self]
  refine ⟨?_, ?_, ?_, ?_, ?_, ?_, ?_⟩
  · rw [hret]
    exact h.quiet
  · by_cases ha : a = 0
    · subst ha
      rw [hpc, Function.update_self]
      exact (hzero rfl).2
    · rw [hpc, Function.update_of_ne (Ne.symm ha)]
      exact h.zero_pc
  · rw [hpub]
    refine ⟨?_, h.zero_init.2⟩
    by_cases ha : a = 0
    · subst ha
      rw [hobj_a]
      exact (hzero rfl).1
    · rw [hobj_ne 0 (Ne.symm ha)]
      exact h.zero_init.1
  · intro v
    rw [hpub]
    refine ⟨?_, (h.one v).2⟩
    by_cases hv : v = a
    · subst hv
      rw [hobj_a]
      exact hone
    · rw [hobj_ne v hv]
      exact (h.one v).1
  · intro v k hk hin
    rw [hnew] at hk ⊢
    rw [hpub] at hin ⊢
    obtain ⟨h1, h2⟩ := h.up v k hk hin
    refine ⟨?_, h2⟩
    by_cases hv : v = a
    · subst hv
      rw [hobj_a]
      exact hup h1
    · rw [hobj_ne v hv]
      exact h1
  · rw [hview, hnew]
    exact h.view_le
  · intro w hw
    by_cases hwa : w = a
    · subst hwa
      rw [hpc, Function.update_self]
      exact hother hw
    · -- the others still see what they saw
      have hread (v : ℕ) : s'.read w v = s.read w v := by
        unfold ArrayState.read
        rw [hpub, hview, hobj_ne w hwa]
      have hw' := h.other_pc w hw
      rw [hpc, Function.update_of_ne hwa]
      revert hw'
      cases s.pc w <;> simp only [OtherPc, hobj_ne w hwa, hread, imp_self]

theorem allocate (h : ArrayInv c i₀ s) (w : ℕ) (hp : s.pre c (.allocate w)) :
    ArrayInv c i₀ (s.next c (.allocate w)) := by
  refine h.worker (a := w) ⟨rfl, rfl, rfl, rfl, rfl, rfl⟩ (fun _ => rfl) ?_ ?_ ?_
  · intro hi
    dsimp only
    split_ifs
    · exact hi
    · rfl
  · intro hw
    subst hw
    exact ⟨h.zero_init.1, Nat.zero_le _⟩
  · intro hw
    refine ⟨hp.1, rfl, ?_⟩
    simp [ArrayState.next, ArrayState.goto, ArrayState.set, hw]

theorem giveUp (h : ArrayInv c i₀ s) (w : ℕ) : ArrayInv c i₀ (s.next c (.giveUp w)) := by
  refine h.worker (a := w) (o := s.obj w) ⟨?_, rfl, rfl, rfl, rfl, rfl⟩ (h.one w).1 id ?_
    (fun _ => trivial)
  · exact (Function.update_eq_self w s.obj).symm
  · intro hw
    subst hw
    exact ⟨h.zero_init.1, trivial⟩

theorem attach (h : ArrayInv c i₀ s) (w : ℕ) (hp : s.pre c (.attach w)) :
    ArrayInv c i₀ (s.next c (.attach w)) := by
  obtain ⟨i, r, hpc, hf⟩ := hp
  by_cases hw : w = 0
  · subst hw
    have hi := h.zero_pc
    rw [hpc] at hi
    have hnext : s.next c (.attach 0) = (s.set 0 { s.obj 0 with
        workers := Function.update (s.obj 0).workers i (some r) }).goto 0 (.check i r) := by
      simp only [ArrayState.next, hpc, hf, ↓reduceIte]
    rw [hnext]
    exact h.worker (a := 0) ⟨rfl, rfl, rfl, rfl, rfl, rfl⟩ (h.one 0).1 id
      (fun _ => ⟨h.zero_init.1, hi, hf⟩) (fun h0 => absurd rfl h0)
  · have ho := h.other_pc w hw
    rw [hpc] at ho
    obtain ⟨hlt, rfl, hin⟩ := ho
    have hnext : s.next c (.attach w) = s.goto w (.check 0 r) := by
      simp only [ArrayState.next, hpc, hf, hw, ↓reduceIte]
    rw [hnext]
    exact h.worker (a := w) (o := s.obj w)
      ⟨(Function.update_eq_self w s.obj).symm, rfl, rfl, rfl, rfl, rfl⟩ (h.one w).1 id
      (fun h0 => absurd h0 hw) (fun _ => ⟨hlt, rfl, hin, hf⟩)

/-- The test succeeds for worker 0 below `i₀` only, and for another worker it is made on an
object whose sentinel is set. -/
theorem check (h : ArrayInv c i₀ s) (hi₀ : i₀ < c.nrWorkers)
    (hstop : c.found 0 i₀ = none ∨ c.found 0 i₀ = some (.worker 0))
    (hnear : ∀ w, 0 < w → w < c.nrWorkers → c.found w 0 ≠ some .foreign)
    (w : ℕ) (f : ArrayObj) (hp : s.pre c (.check w f)) :
    ArrayInv c i₀ (s.next c (.check w f)) := by
  obtain ⟨i, r, hpc, hin⟩ := hp
  by_cases hw : w = 0
  · subst hw
    have hi := h.zero_pc
    rw [hpc] at hi
    obtain ⟨hle, hf⟩ := hi
    -- worker 0 stops at `i₀`: it finds nothing there, or its own array, not initialized yet
    have hlt : i < i₀ := by
      refine lt_of_le_of_ne hle ?_
      intro he
      rw [he] at hf
      rcases hstop with hs | hs
      · rw [hs] at hf
        exact absurd hf (by simp)
      · rw [hs] at hf
        rw [← Option.some.inj hf] at hin
        exact absurd hin (by simp [ArrayState.readRef, h.read_zero])
    have hnext : s.next c (.check 0 f) = s.goto 0 (.attach (i+1)) := by
      simp only [ArrayState.next, hpc, ↓reduceIte, show i+1 < c.nrWorkers from by omega]
    rw [hnext]
    exact h.worker (a := 0) (o := s.obj 0)
      ⟨(Function.update_eq_self 0 s.obj).symm, rfl, rfl, rfl, rfl, rfl⟩ (h.one 0).1 id
      (fun _ => ⟨h.zero_init.1, hlt⟩) (fun h0 => absurd rfl h0)
  · have ho := h.other_pc w hw
    rw [hpc] at ho
    obtain ⟨hlt, rfl, hiw, hf⟩ := ho
    have hnext : s.next c (.check w f) = s.finish c w r (s.readRef w f r) := by
      simp only [ArrayState.next, hpc, hw, ↓reduceIte]
    rw [hnext]
    cases r with
    | foreign => exact absurd hf (hnear w (Nat.pos_of_ne_zero hw) hlt)
    | worker v =>
      -- the parent is a worker that was initialized when it was read
      refine h.worker (a := w) (o := (s.finish c w (.worker v) (s.read w v)).obj w)
        ⟨?_, rfl, rfl, rfl, rfl, rfl⟩ ?_ ?_ (fun h0 => absurd h0 hw) (fun _ => ⟨?_, v, ?_, ?_⟩)
      · simp only [ArrayState.finish, ArrayState.barrier, ArrayState.goto, ArrayState.set,
          ArrayState.readRef, Function.update_self, Function.update_idem]
      · simp only [ArrayState.finish, ArrayState.barrier, ArrayState.goto, ArrayState.set,
          Function.update_self]
        exact (h.one w).1
      · simp only [ArrayState.finish, ArrayState.barrier, ArrayState.goto, ArrayState.set,
          Function.update_self]
        exact id
      · simp only [ArrayState.finish, ArrayState.barrier, ArrayState.goto, ArrayState.set,
          Function.update_self]
        exact (h.one w).1 hiw
      · simp only [ArrayState.finish, ArrayState.barrier, ArrayState.goto, ArrayState.set,
          Function.update_self]
      · simp only [ArrayState.readRef, ArrayState.read] at hin
        simp only [ArrayState.read, ArrayState.finish, ArrayState.barrier, ArrayState.goto,
          ArrayState.set, Function.update_self]
        split_ifs at hin ⊢
        · exact hiw
        · exact hin

theorem proceed (h : ArrayInv c i₀ s) (w : ℕ) (hp : s.pre c (.proceed w)) :
    ArrayInv c i₀ (s.next c (.proceed w)) := by
  have hpc : s.pc w = .entered := hp
  have hw : w ≠ 0 := by
    intro hw
    subst hw
    have h0 := h.zero_pc
    rw [hpc] at h0
    exact h0
  have ho := h.other_pc w hw
  rw [hpc] at ho
  refine h.worker (a := w) (o := s.obj w) ⟨?_, rfl, rfl, rfl, rfl, rfl⟩ (h.one w).1 id
    (fun h0 => absurd h0 hw) (fun _ => ?_)
  · exact (Function.update_eq_self w s.obj).symm
  · rw [if_neg hw]
    exact ho

/-- Nobody can leave: the parent is at version 1 as everybody sees it. -/
theorem leave (h : ArrayInv c i₀ s) (w : ℕ) (f : ArrayObj) : ¬s.pre c (.leave w f) := by
  rintro ⟨hpc, r, hr, hne⟩
  have hw : w ≠ 0 := by
    intro hw
    subst hw
    have h0 := h.zero_pc
    rw [hpc] at h0
    exact h0
  have ho := h.other_pc w hw
  rw [hpc] at ho
  obtain ⟨hd, v, hv, hin⟩ := ho
  rw [hr] at hv
  rw [Option.some.inj hv, hd] at hne
  exact hne (h.read_one w v hin).symm

theorem publish (h : ArrayInv c i₀ s) (w : ℕ) : ArrayInv c i₀ (s.next c (.publish w)) := by
  have hpub (v k : ℕ) : (s.next c (.publish w)).published v k =
      if v = w ∧ k = s.newest w+1 then s.obj w else s.published v k := by
    by_cases hv : v = w
    · subst hv
      by_cases hk : k = s.newest v+1
      · subst hk
        simp [ArrayState.next]
      · simp [ArrayState.next, hk]
    · simp [ArrayState.next, hv]
  have hnew (v : ℕ) : (s.next c (.publish w)).newest v =
      if v = w then s.newest w+1 else s.newest v := by
    by_cases hv : v = w
    · subst hv
      simp [ArrayState.next]
    · simp [ArrayState.next, hv]
  refine ⟨h.quiet, h.zero_pc, ⟨h.zero_init.1, ?_⟩, ?_, ?_, ?_, ?_⟩
  · intro k
    rw [hpub]
    split_ifs with hk
    · rw [← hk.1]
      exact h.zero_init.1
    · exact h.zero_init.2 k
  · intro v
    refine ⟨(h.one v).1, fun k => ?_⟩
    rw [hpub]
    split_ifs with hk
    · exact (h.one w).1
    · exact (h.one v).2 k
  · intro v k hk hin
    rw [hnew] at hk
    rw [hpub] at hin
    have hobj : (s.obj v).initialized = true := by
      split_ifs at hin with hkw
      · rw [hkw.1]
        exact hin
      · refine (h.up v k ?_ hin).1
        split_ifs at hk with hv
        · rw [hv]
          have : k ≠ s.newest w+1 := fun he => hkw ⟨hv, he⟩
          omega
        · exact hk
    refine ⟨hobj, ?_⟩
    intro k' h1 h2
    rw [hnew] at h2
    rw [hpub]
    by_cases hk' : v = w ∧ k' = s.newest w+1
    · rw [if_pos hk', ← hk'.1]
      exact hobj
    · rw [if_neg hk']
      rw [if_neg (fun hkw => hk' ⟨hkw.1, by
        rw [if_pos hkw.1] at h2
        omega⟩)] at hin
      refine (h.up v k ?_ hin).2 k' h1 ?_
      · split_ifs at h2 with hv
        · rw [hv]
          have : k' ≠ s.newest w+1 := fun he => hk' ⟨hv, he⟩
          omega
        · omega
      · split_ifs at h2 with hv
        · rw [hv]
          have : k' ≠ s.newest w+1 := fun he => hk' ⟨hv, he⟩
          omega
        · exact h2
  · intro u v
    have hle := h.view_le u v
    rw [hnew]
    change s.view u v ≤ _
    split_ifs with hv
    · rw [← hv]
      omega
    · exact hle
  · intro u hu
    have ho := h.other_pc u hu
    -- what has been delivered stays
    have hread (v : ℕ) : (s.next c (.publish w)).read u v = s.read u v := by
      have hold : ¬(v = w ∧ s.view u v = s.newest w+1) := by
        rintro ⟨hv, hk⟩
        have := h.view_le u v
        rw [hk, hv] at this
        omega
      simp only [ArrayState.read, hpub]
      change (if v = u then s.obj u else if v = w ∧ s.view u v = s.newest w+1 then s.obj w
        else s.published v (s.view u v)) = _
      rw [if_neg hold]
    change OtherPc c _ u (s.pc u)
    revert ho
    cases s.pc u <;> simp only [OtherPc, hread] <;> exact id

theorem refresh (h : ArrayInv c i₀ s) (w v k : ℕ) (hp : s.pre c (.refresh w v k)) :
    ArrayInv c i₀ (s.next c (.refresh w v k)) := by
  obtain ⟨h1, h2⟩ := hp
  have hview (a b : ℕ) : (s.next c (.refresh w v k)).view a b =
      if a = w ∧ b = v then k else s.view a b := by
    by_cases ha : a = w
    · subst ha
      by_cases hb : b = v
      · subst hb
        simp [ArrayState.next]
      · simp [ArrayState.next, hb]
    · simp [ArrayState.next, ha]
  refine ⟨h.quiet, h.zero_pc, h.zero_init, h.one, h.up, ?_, ?_⟩
  · intro a b
    rw [hview]
    change _ ≤ s.newest b
    split_ifs with hab
    · rw [hab.2]
      exact h2
    · exact h.view_le a b
  · intro u hu
    have ho := h.other_pc u hu
    have hread (b : ℕ) (hb : (s.read u b).initialized = true) :
        ((s.next c (.refresh w v k)).read u b).initialized = true := by
      simp only [ArrayState.read, hview] at hb ⊢
      change (if b = u then s.obj u else s.published b (if u = w ∧ b = v then k else
        s.view u b)).initialized = true
      by_cases hbu : b = u
      · rw [if_pos hbu] at hb ⊢
        exact hb
      · rw [if_neg hbu] at hb ⊢
        split_ifs with hab
        · -- a later version has the sentinel set as well
          rw [hab.2] at hb ⊢
          rw [hab.1] at hb
          exact (h.up v _ (h.view_le w v) hb).2 k h1 h2
        · exact hb
    change OtherPc c _ u (s.pc u)
    revert ho
    cases s.pc u with
    | entered => exact fun ho => ⟨ho.1, ho.2.imp fun b hb => ⟨hb.1, hread b hb.2⟩⟩
    | await => exact fun ho => ⟨ho.1, ho.2.imp fun b hb => ⟨hb.1, hread b hb.2⟩⟩
    | _ => exact id

theorem step (h : ArrayInv c i₀ s) (hi₀ : i₀ < c.nrWorkers)
    (hstop : c.found 0 i₀ = none ∨ c.found 0 i₀ = some (.worker 0))
    (hnear : ∀ w, 0 < w → w < c.nrWorkers → c.found w 0 ≠ some .foreign)
    (a : ArrayAct) (hp : s.pre c a) : ArrayInv c i₀ (s.next c a) := by
  have h0 := h.zero_pc
  cases a with
  | allocate w => exact h.allocate w hp
  | giveUp w => exact h.giveUp w
  | attach w => exact h.attach w hp
  | check w f => exact h.check hi₀ hstop hnear w f hp
  | start =>
    rw [show s.pc 0 = .synced from hp] at h0
    exact h0.elim
  | proceed w => exact h.proceed w hp
  | collect f =>
    obtain ⟨j, r, hpc, -⟩ := hp
    rw [hpc] at h0
    exact h0.elim
  | bump =>
    obtain ⟨j, hpc, -⟩ := hp
    rw [hpc] at h0
    exact h0.elim
  | leave w f => exact absurd hp (h.leave w f)
  | again w =>
    have hpc : s.pc w = .out := hp
    by_cases hw : w = 0
    · rw [← hw, hpc] at h0
      exact h0.elim
    · have ho := h.other_pc w hw
      rw [hpc] at ho
      exact ho.elim
  | publish w => exact h.publish w
  | refresh w v k => exact h.refresh w v k hp

end ArrayInv

/-- While worker 0 is stuck nobody returns from `Barrier` at all. -/
theorem safe_of_stuck (hc : c.Stuck) (h : (arraySystem c).Reachable s) : s.Safe c := by
  obtain ⟨⟨i₀, hi₀, hstop⟩, hnear⟩ := hc
  have hinv : ArrayInv c i₀ s := by
    refine h.invariant ?_ (fun s a hs hp => hs.step hi₀ hstop hnear a hp)
    intro s hs
    rw [show s = {} from hs]
    exact ArrayInv.init
  intro w v _ _
  rw [hinv.quiet w]
  exact Nat.zero_le _

end Stuck

section Through
variable {c : ArrayConfig} {s : ArrayState}

theorem arrayStep (h : (arraySystem c).Reachable s) (a : ArrayAct) (hp : s.pre c a) :
    (arraySystem c).Reachable (s.next c a) := System.Reachable.step (S := arraySystem c) h hp

/-- A worker that takes a foreign area for the parent returns as soon as the version it reads
there is not its own. -/
theorem foreign_parent_returns {w : ℕ} (h0 : 0 < w) (hw : w < c.nrWorkers)
    (hf : c.found w 0 = some .foreign) :
    ∃ s, (arraySystem c).Reachable s ∧ s.returned w = 1 ∧ s.entered 0 = 0 := by
  have hne : w ≠ 0 := by omega
  have hinit : (arraySystem c).Reachable {} := .init rfl
  have h1 := arrayStep hinit (.allocate w) ⟨hw, rfl⟩
  have h2 := arrayStep h1 (.attach w)
    ⟨0, .foreign, by simp [ArrayState.next, ArrayState.goto], hf⟩
  have h3 := arrayStep h2 (.check w { initialized := true })
    ⟨0, .foreign, by simp [ArrayState.next, ArrayState.goto, hf], rfl⟩
  have h4 := arrayStep h3 (.proceed w) (by
    simp [ArrayState.pre, ArrayState.next, ArrayState.goto, hf, hne, ArrayState.finish,
      ArrayState.barrier])
  have h5 := arrayStep h4 (.leave w { version := 2 }) (by
    simp [ArrayState.pre, ArrayState.next, ArrayState.goto, hf, hne, ArrayState.finish,
      ArrayState.barrier, ArrayState.set, ArrayState.readRef])
  refine ⟨_, h5, ?_, ?_⟩
  · simp [ArrayState.next, ArrayState.goto, hf, hne, ArrayState.finish,
      ArrayState.barrier, ArrayState.set]
  · simp [ArrayState.next, ArrayState.goto, hf, hne, ArrayState.finish,
      ArrayState.barrier, ArrayState.set, Ne.symm hne]

/-- Workers up to `m` have their sentinel set, and worker 0 can see it; worker 0 itself has
not started, and nobody has entered `Barrier`. -/
structure Seen (m : ℕ) (s : ArrayState) : Prop where
  absent : ∀ v, v = 0 ∨ m < v → s.pc v = .absent ∧ s.obj v = {} ∧ s.newest v = 0 ∧ s.view 0 v = 0
  seen : ∀ v, 0 < v → v ≤ m → (s.published v (s.view 0 v)).initialized = true
  entered : ∀ v, s.entered v = 0
  returned : ∀ v, s.returned v = 0

theorem seen_reachable (c : ArrayConfig) (m : ℕ) (hm : m < c.nrWorkers) :
    ∃ s, (arraySystem c).Reachable s ∧ Seen m s := by
  induction m with
  | zero =>
    refine ⟨{}, .init rfl, fun _ _ => ⟨rfl, rfl, rfl, rfl⟩, ?_, fun _ => rfl, fun _ => rfl⟩
    intro v h1 h2
    omega
  | succ m ih =>
    obtain ⟨s, hs, hseen⟩ := ih (by omega)
    obtain ⟨hpc, hobj, hnew, hview⟩ := hseen.absent (m+1) (Or.inr (by omega))
    have h1 := arrayStep hs (.allocate (m+1)) ⟨hm, hpc⟩
    have h2 := arrayStep h1 (.publish (m+1)) trivial
    have h3 := arrayStep h2 (.refresh 0 (m+1) 1) (by
      simp [ArrayState.pre, ArrayState.next, ArrayState.goto, ArrayState.set, hview, hnew])
    refine ⟨_, h3, ?_, ?_, ?_, ?_⟩
    · intro v hv
      have hne : v ≠ m+1 := by omega
      have ha := hseen.absent v (by omega)
      simp [ArrayState.next, ArrayState.goto, ArrayState.set, hne, ha]
    · intro v hv hle
      by_cases hvm : v = m+1
      · subst hvm
        simp [ArrayState.next, ArrayState.goto, ArrayState.set, hnew]
      · have ha := hseen.seen v hv (by omega)
        simp [ArrayState.next, ArrayState.goto, ArrayState.set, hvm, ha]
    · exact hseen.entered
    · exact hseen.returned

/-- Worker 0 has reached its look-up number `i`. -/
structure Climbs (c : ArrayConfig) (i : ℕ) (s : ArrayState) : Prop where
  pc : s.pc 0 = .attach i
  fields : (s.obj 0).version = 1 ∧ (s.obj 0).nrWorkers = 0
  seen : ∀ v, 0 < v → v < c.nrWorkers → (s.published v (s.view 0 v)).initialized = true
  entered : ∀ v, s.entered v = 0
  returned : ∀ v, s.returned v = 0

/-- The test in worker 0's loop succeeds on every object but its own. -/
theorem Climbs.passes {i : ℕ} (h : Climbs c i s) {r : ArrayRef} (hf : c.found 0 i = some r)
    (hr : r ≠ .worker 0) : (s.readRef 0 { initialized := true } r).initialized = true := by
  cases r with
  | foreign => rfl
  | worker v =>
    have hv : v ≠ 0 := by
      intro hv
      rw [hv] at hr
      exact hr rfl
    rw [ArrayState.readRef, ArrayState.read, if_neg hv]
    exact h.seen v (Nat.pos_of_ne_zero hv) (c.found_lt 0 i v hf)

/-- Worker 0's attach and test for index `i` as one pass. -/
theorem Climbs.pass {i : ℕ} (h : Climbs c i s) (hs : (arraySystem c).Reachable s) {r : ArrayRef}
    (hf : c.found 0 i = some r) (hr : r ≠ .worker 0) :
    (arraySystem c).Reachable (((s.set 0 { s.obj 0 with
      workers := Function.update (s.obj 0).workers i (some r) }).goto 0 (.check i r)).next c
        (.check 0 { initialized := true })) := by
  have h1 := arrayStep hs (.attach 0) ⟨i, r, h.pc, hf⟩
  have hnext : s.next c (.attach 0) = (s.set 0 { s.obj 0 with
      workers := Function.update (s.obj 0).workers i (some r) }).goto 0 (.check i r) := by
    simp only [ArrayState.next, h.pc, hf, ↓reduceIte]
  rw [hnext] at h1
  refine arrayStep h1 (.check 0 { initialized := true }) ⟨i, r, by simp [ArrayState.goto], ?_⟩
  have hin := h.passes hf hr
  cases r with
  | foreign => rfl
  | worker v =>
    have hv : v ≠ 0 := by
      intro hv
      rw [hv] at hr
      exact hr rfl
    simpa [ArrayState.readRef, ArrayState.read, hv, ArrayState.goto, ArrayState.set] using hin

theorem climbs_reachable (hall : ∀ i < c.nrWorkers, ∃ r, c.found 0 i = some r ∧ r ≠ .worker 0)
    (i : ℕ) (hi : i < c.nrWorkers) : ∃ s, (arraySystem c).Reachable s ∧ Climbs c i s := by
  have h2 := c.two_le
  induction i with
  | zero =>
    obtain ⟨s, hs, hseen⟩ := seen_reachable c (c.nrWorkers-1) (by omega)
    obtain ⟨hpc, hobj, -⟩ := hseen.absent 0 (Or.inl rfl)
    have h1 := arrayStep hs (.allocate 0) ⟨hi, hpc⟩
    refine ⟨_, h1, ?_, ?_, ?_, hseen.entered, hseen.returned⟩
    · simp [ArrayState.next, ArrayState.goto]
    · simp [ArrayState.next, ArrayState.goto, ArrayState.set]
    · exact fun v h1 h2 => hseen.seen v h1 (by omega)
  | succ i ih =>
    obtain ⟨s, hs, hc⟩ := ih (by omega)
    obtain ⟨r, hf, hr⟩ := hall i (by omega)
    have h3 := hc.pass hs hf hr
    refine ⟨_, h3, ?_, ?_, ?_, ?_, ?_⟩
    · simp [ArrayState.next, ArrayState.goto, hi]
    · simpa [ArrayState.next, ArrayState.goto, ArrayState.set, hi] using hc.fields
    · simpa [ArrayState.next, ArrayState.goto, ArrayState.set, hi] using hc.seen
    · simpa [ArrayState.next, ArrayState.goto, ArrayState.set, hi] using hc.entered
    · simpa [ArrayState.next, ArrayState.goto, ArrayState.set, hi] using hc.returned

/-- Once through its look-ups worker 0 waits for nobody: `_nr_workers` of the parent, which is
its own object, is still zero. -/
theorem zero_returns (hall : ∀ i < c.nrWorkers, ∃ r, c.found 0 i = some r ∧ r ≠ .worker 0) :
    ∃ s, (arraySystem c).Reachable s ∧ s.returned 0 = 1 ∧ s.entered 1 = 0 := by
  have h2 := c.two_le
  obtain ⟨s, hs, hc⟩ := climbs_reachable hall (c.nrWorkers-1) (by omega)
  obtain ⟨r, hf, hr⟩ := hall (c.nrWorkers-1) (by omega)
  have h1 := hc.pass hs hf hr
  have hlast : ¬c.nrWorkers-1+1 < c.nrWorkers := by omega
  have h3 := arrayStep h1 .start (by
    simp [ArrayState.pre, ArrayState.next, ArrayState.goto, hlast])
  have h4 := arrayStep h3 (.proceed 0) (by
    simp [ArrayState.pre, ArrayState.next, ArrayState.goto, ArrayState.finish, ArrayState.barrier])
  have h5 := arrayStep h4 .bump (by
    refine ⟨0, ?_, ?_⟩
    · simp [ArrayState.next, ArrayState.goto]
    · simp [ArrayState.next, ArrayState.goto, ArrayState.finish, ArrayState.barrier,
        ArrayState.set, hlast, hc.fields])
  have h6 := arrayStep h5 (.leave 0 {}) (by
    simp [ArrayState.pre, ArrayState.next, ArrayState.goto, ArrayState.finish, ArrayState.barrier,
      ArrayState.set, ArrayState.readRef, ArrayState.read, hlast])
  refine ⟨_, h6, ?_, ?_⟩
  · simp [ArrayState.next, ArrayState.goto, ArrayState.finish, ArrayState.barrier, ArrayState.set,
      hlast, hc.returned]
  · simp [ArrayState.next, ArrayState.goto, ArrayState.finish, ArrayState.barrier, ArrayState.set,
      hlast, hc.entered]

end Through

/-- The barrier is safe in all runs exactly when nobody ever gets through it: worker 0 is
stuck in `Allocate`, and no other worker takes a foreign area for the parent. -/
theorem array_barrier_safe_iff (c : ArrayConfig) :
    (∀ s, (arraySystem c).Reachable s → s.Safe c) ↔ c.Stuck := by
  have h2 := c.two_le
  constructor
  · intro h
    constructor
    · by_contra hno
      push Not at hno
      have hall (i : ℕ) (hi : i < c.nrWorkers) : ∃ r, c.found 0 i = some r ∧ r ≠ .worker 0 := by
        obtain ⟨h1, h3⟩ := hno i hi
        obtain ⟨r, hr⟩ := Option.ne_none_iff_exists'.mp h1
        refine ⟨r, hr, ?_⟩
        intro he
        rw [he] at hr
        exact h3 hr
      obtain ⟨s, hs, hret, hent⟩ := zero_returns hall
      have := h s hs 0 1 (by omega) (by omega)
      omega
    · intro w h0 hw hf
      obtain ⟨s, hs, hret, hent⟩ := foreign_parent_returns h0 hw hf
      have := h s hs w 0 hw (by omega)
      omega
  · intro hc s hs
    exact safe_of_stuck hc hs

/-- Two workers. Worker 0's look-ups hit two areas of another program that hold the sentinel
at the right place; it returns from its first `Barrier` while worker 1 has not entered. -/
theorem array_barrier_unsafe :
    let c : ArrayConfig := ⟨2, le_rfl, fun w _ => if w = 0 then some .foreign else none, by
      intro w _ v h
      split_ifs at h
      exact absurd h (by simp)⟩
    ¬(∀ s, (arraySystem c).Reachable s → s.Safe c) ∧
    ∃ s, (arraySystem c).Reachable s ∧ s.returned 0 = 1 ∧ s.entered 1 = 0 := by
  intro c
  obtain ⟨s, hs, hret, hent⟩ := zero_returns (c := c) (fun _ _ => ⟨.foreign, rfl, by simp⟩)
  refine ⟨?_, s, hs, hret, hent⟩
  intro h
  have := h s hs 0 1 (by decide) (by decide)
  omega

end Tasvir
