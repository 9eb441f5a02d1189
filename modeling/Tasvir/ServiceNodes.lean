import Mathlib.Tactic
import Tasvir.Container
import Tasvir.Machine

/-! `tasvir_service_nodes`: a daemon attaches to the node areas among the children of the root,
once for each version of the root that it sees. While it waits in `tasvir_attach_wait` it calls
`tasvir_service`, so the root may change and the function may be entered again. -/
namespace Tasvir

/-- The versions of the root container. Children are only ever added, version 0 is a header not
yet written, and `seen` says which versions the daemon gets to see. -/
structure RootHistory where
  nrAreasMax : ℕ
  nrAreas : ℕ → ℕ
  type : ℕ → ℕ → AreaType
  seen : ℕ → Prop
  size : nrAreasMax < 2^64
  nrAreas_le : ∀ v, nrAreas v ≤ nrAreasMax
  nrAreas_zero : nrAreas 0 = 0
  nrAreas_mono : ∀ v w, v ≤ w → nrAreas v ≤ nrAreas w
  type_stable : ∀ v w, v ≤ w → ∀ i < nrAreas v, type w i = type v i
  seen_pos : ∀ v, seen v → 0 < v

/-- The local variables of a `tasvir_service_nodes` in its loop; `waiting` says that it is in
`tasvir_attach_wait`. -/
structure NodesFrame where
  nrAreas : ℕ
  i : ℕ
  waiting : Bool
deriving DecidableEq, Repr

/-- `vPrev` is the static variable and `stack` the calls in progress. `attached` are the children
that attach was called for, and `inspected` the indices that were read with `nr_areas` then. -/
structure NodesState where
  version : ℕ := 0
  vPrev : ℕ := 0
  stack : List NodesFrame := []
  attached : List ℕ := []
  inspected : List (ℕ × ℕ) := []
deriving DecidableEq, Repr

inductive NodesAct
  | publish (v : ℕ)
  | serviceNodes
  | iterate
  | attachDone
deriving DecidableEq, Repr

namespace NodesState
variable (h : RootHistory)

/-- The daemon is in `tasvir_service`, at the top or below a `tasvir_attach_wait`. -/
def inService (s : NodesState) : Bool := s.stack.head?.all NodesFrame.waiting

/-- One round of the loop, with its condition `--nr_areas > 0 && i < nr_areas_max`. -/
def iterate (s : NodesState) (f : NodesFrame) (fs : List NodesFrame) : NodesState :=
  let nrAreas := u64 (f.nrAreas+2^64-1)
  if 0 < nrAreas ∧ f.i < h.nrAreasMax then
    let isNode := h.type s.version f.i = .node
    { s with
      stack := { nrAreas, i := f.i+1, waiting := isNode } :: fs
      attached := if isNode then f.i :: s.attached else s.attached
      inspected := (f.i, h.nrAreas s.version) :: s.inspected }
  else { s with stack := fs }

def next (s : NodesState) : NodesAct → NodesState
  | .publish v => { s with version := v }
  | .serviceNodes =>
    -- every new version starts a walk; one that waits lies below it on the stack
    if s.version = s.vPrev then s
    else { s with
      vPrev := s.version
      stack := { nrAreas := h.nrAreas s.version, i := 0, waiting := false } :: s.stack }
  | .iterate =>
    match s.stack with
    | [] => s
    | f :: fs => s.iterate h f fs
  | .attachDone =>
    match s.stack with
    | [] => s
    | f :: fs => { s with stack := { f with waiting := false } :: fs }

def pre (s : NodesState) : NodesAct → Prop
  | .publish v => s.inService = true ∧ s.version ≤ v ∧ h.seen v
  | .serviceNodes => s.inService = true
  | .iterate => s.inService = false
  | .attachDone => s.inService = true ∧ s.stack ≠ []

end NodesState

def nodesSystem (h : RootHistory) : Machine.System NodesState NodesAct where
  init := fun s => s = {}
  pre := NodesState.pre h
  next := NodesState.next h

/-- No descriptor from `nr_areas` on was read, and when no call is in progress and `v_prev` is
current, attach was called for every node area. -/
def NodesState.AllAttached (h : RootHistory) (s : NodesState) : Prop :=
  (∀ p ∈ s.inspected, p.1 < p.2) ∧
  (s.stack = [] → s.vPrev = s.version →
    ∀ i < h.nrAreas s.version, h.type s.version i = .node → i ∈ s.attached)

/-- The root has a child, or room for none, and the last child is not a node area. -/
def RootHistory.Covered (h : RootHistory) (v : ℕ) : Prop :=
  (h.nrAreas v = 0 → h.nrAreasMax = 0) ∧ ∀ i, h.nrAreas v = i+1 → h.type v i ≠ .node

/-- The loop of the frame will read child `i`. -/
def NodesFrame.Reads (f : NodesFrame) (i : ℕ) : Prop := f.i ≤ i ∧ i+1 < f.i+f.nrAreas

/-- The counter of the frame does not wrap around before the loop ends. -/
def NodesFrame.Fits (h : RootHistory) (v : ℕ) (f : NodesFrame) : Prop :=
  (0 < f.nrAreas ∧ f.i+f.nrAreas ≤ h.nrAreas v) ∨ (f.nrAreas = 0 ∧ h.nrAreasMax = 0)

/-- Every node area of the version last served is attached, or a loop still comes to it. -/
structure NodesInv (h : RootHistory) (s : NodesState) : Prop where
  version : s.version = 0 ∨ h.seen s.version
  prev : s.vPrev ≤ s.version
  fits : ∀ f ∈ s.stack, f.Fits h s.version
  inspected : ∀ p ∈ s.inspected, p.1 < p.2
  covered : ∀ i < h.nrAreas s.vPrev, h.type s.vPrev i = .node →
    i ∈ s.attached ∨ ∃ f ∈ s.stack, f.Reads i

section
variable {h : RootHistory} {s : NodesState}

theorem NodesFrame.Fits.mono {f : NodesFrame} {v w : ℕ} (hf : f.Fits h v) (hvw : v ≤ w) :
    f.Fits h w := by
  rcases hf with ⟨hpos, hle⟩ | hz
  · exact .inl ⟨hpos, hle.trans (h.nrAreas_mono v w hvw)⟩
  · exact .inr hz

theorem NodesInv.init : NodesInv h {} where
  version := .inl rfl
  prev := le_refl _
  fits := by simp
  inspected := by simp
  covered := by
    intro i hi
    simp only [h.nrAreas_zero] at hi
    omega

theorem NodesInv.publish (hi : NodesInv h s) {v : ℕ} (hp : s.pre h (.publish v)) :
    NodesInv h (s.next h (.publish v)) where
  version := .inr hp.2.2
  prev := hi.prev.trans hp.2.1
  fits := fun f hf => (hi.fits f hf).mono hp.2.1
  inspected := hi.inspected
  covered := hi.covered

theorem NodesInv.serviceNodes (hi : NodesInv h s) (hc : ∀ v, h.seen v → h.Covered v) :
    NodesInv h (s.next h .serviceNodes) := by
  simp only [NodesState.next]
  split
  · exact hi
  case isFalse hne =>
    have hprev := hi.prev
    have hseen : h.seen s.version := hi.version.resolve_left (by omega)
    obtain ⟨hzero, hlast⟩ := hc _ hseen
    constructor
    case version => exact hi.version
    case prev => exact le_refl _
    case inspected => exact hi.inspected
    case fits =>
      intro f hf
      rcases List.mem_cons.mp hf with rfl | hf
      · rcases Nat.eq_zero_or_pos (h.nrAreas s.version) with hz | hpos
        · exact .inr ⟨hz, hzero hz⟩
        · exact .inl ⟨hpos, (Nat.zero_add _).le⟩
      · exact hi.fits f hf
    case covered =>
      intro i hin hnode
      -- every child but the last is still to be read, and the last is no node area
      right
      refine ⟨_, List.mem_cons_self, Nat.zero_le i, ?_⟩
      have hne : h.nrAreas s.version ≠ i+1 := fun he => hlast i he hnode
      simp only at hin ⊢
      omega

/-- The loop either ends with nothing left to read, or reads the next child, which exists. -/
theorem NodesFrame.Fits.iterate {f : NodesFrame} (hf : f.Fits h s.version)
    (fs : List NodesFrame) :
    (s.iterate h f fs = { s with stack := fs } ∧ ∀ i, ¬f.Reads i) ∨
    (f.i < h.nrAreas s.version ∧ 1 < f.nrAreas ∧ s.iterate h f fs = { s with
      stack := { nrAreas := f.nrAreas-1, i := f.i+1
                 waiting := h.type s.version f.i = .node } :: fs
      attached := if h.type s.version f.i = .node then f.i :: s.attached else s.attached
      inspected := (f.i, h.nrAreas s.version) :: s.inspected }) := by
  have hmax := h.nrAreas_le s.version
  have hsize := h.size
  rcases hf with ⟨hpos, hle⟩ | ⟨hz, hz'⟩
  · have hdec : u64 (f.nrAreas+2^64-1) = f.nrAreas-1 := by
      unfold u64
      omega
    by_cases h1 : f.nrAreas = 1
    · left
      constructor
      · rw [NodesState.iterate, hdec, if_neg (by omega)]
      · rintro i ⟨hle', hlt⟩
        omega
    · right
      refine ⟨by omega, by omega, ?_⟩
      rw [NodesState.iterate, hdec, if_pos ⟨by omega, by omega⟩]
  · left
    constructor
    · rw [NodesState.iterate, if_neg (by omega)]
    · rintro i ⟨hle', hlt⟩
      omega

theorem NodesInv.iterate (hi : NodesInv h s) : NodesInv h (s.next h .iterate) := by
  simp only [NodesState.next]
  cases hs : s.stack with
  | nil => exact hi
  | cons f fs =>
    have hfit := hi.fits f (by simp [hs])
    have hfits : ∀ g ∈ fs, g.Fits h s.version := fun g hg => hi.fits g (by simp [hs, hg])
    rcases hfit.iterate fs with ⟨hr, hnone⟩ | ⟨hlt, hone, hr⟩
    · simp only [hr]
      constructor
      case version => exact hi.version
      case prev => exact hi.prev
      case fits => exact hfits
      case inspected => exact hi.inspected
      case covered =>
        intro i hin hnode
        rcases hi.covered i hin hnode with ha | ⟨g, hg, hread⟩
        · exact .inl ha
        · rw [hs] at hg
          rcases List.mem_cons.mp hg with rfl | hg
          · exact absurd hread (hnone i)
          · exact .inr ⟨g, hg, hread⟩
    · simp only [hr]
      constructor
      case version => exact hi.version
      case prev => exact hi.prev
      case fits =>
        intro g hg
        rcases List.mem_cons.mp hg with rfl | hg
        · rcases hfit with ⟨-, hle⟩ | ⟨hz, -⟩
          · exact .inl ⟨by simp only; omega, by simp only; omega⟩
          · omega
        · exact hfits g hg
      case inspected =>
        intro p hp
        rcases List.mem_cons.mp hp with rfl | hp
        · exact hlt
        · exact hi.inspected p hp
      case covered =>
        intro i hin hnode
        rcases hi.covered i hin hnode with ha | ⟨g, hg, hread⟩
        · left
          split
          · exact List.mem_cons_of_mem _ ha
          · exact ha
        · rw [hs] at hg
          rcases List.mem_cons.mp hg with rfl | hg
          · by_cases heq : i = g.i
            · -- the child that is read now has the same type as in the version served
              left
              have htype := h.type_stable _ _ hi.prev i hin
              rw [hnode, heq] at htype
              simp [htype, heq]
            · obtain ⟨hle, hlt'⟩ := hread
              exact .inr ⟨_, List.mem_cons_self, by simp only; omega, by simp only; omega⟩
          · exact .inr ⟨g, List.mem_cons_of_mem _ hg, hread⟩

theorem NodesInv.attachDone (hi : NodesInv h s) : NodesInv h (s.next h .attachDone) := by
  simp only [NodesState.next]
  cases hs : s.stack with
  | nil => exact hi
  | cons f fs =>
    constructor
    case version => exact hi.version
    case prev => exact hi.prev
    case inspected => exact hi.inspected
    case fits =>
      intro g hg
      rcases List.mem_cons.mp hg with rfl | hg
      · exact hi.fits f (by simp [hs])
      · exact hi.fits g (by simp [hs, hg])
    case covered =>
      intro i hin hnode
      rcases hi.covered i hin hnode with ha | ⟨g, hg, hread⟩
      · exact .inl ha
      · rw [hs] at hg
        rcases List.mem_cons.mp hg with rfl | hg
        · exact .inr ⟨_, List.mem_cons_self, hread⟩
        · exact .inr ⟨g, List.mem_cons_of_mem _ hg, hread⟩

theorem nodesInv_reachable (hc : ∀ v, h.seen v → h.Covered v)
    (hr : (nodesSystem h).Reachable s) : NodesInv h s := by
  apply hr.invariant
  · rintro s rfl
    exact NodesInv.init
  · intro s a hi hp
    cases a with
    | publish v => exact hi.publish hp
    | serviceNodes => exact hi.serviceNodes hc
    | iterate => exact hi.iterate
    | attachDone => exact hi.attachDone

theorem NodesInv.allAttached (hi : NodesInv h s) : s.AllAttached h := by
  refine ⟨hi.inspected, ?_⟩
  intro hstack hprev i hin hnode
  rw [← hprev] at hin hnode
  rcases hi.covered i hin hnode with ha | ⟨f, hf, -⟩
  · exact ha
  · simp [hstack] at hf

theorem nodesSystem_step (hr : (nodesSystem h).Reachable s) (a : NodesAct) (hp : s.pre h a) :
    (nodesSystem h).Reachable (s.next h a) := hr.step hp

/-- A loop that nothing interrupts comes to its end without attaching to the child `k`, the last
that its counter stands for. -/
theorem loop_skips_last {k : ℕ} (m : ℕ) {i : ℕ} (hr : (nodesSystem h).Reachable s)
    (hs : s.stack = [{ nrAreas := m+1, i, waiting := false }]) (hk : i+m = k)
    (hn : h.nrAreas s.version = k+1) (ha : ∀ j ∈ s.attached, j < k) :
    ∃ s', (nodesSystem h).Reachable s' ∧ s'.stack = [] ∧ s'.version = s.version ∧
      s'.vPrev = s.vPrev ∧ k ∉ s'.attached := by
  induction m generalizing s i with
  | zero =>
    have hfit : NodesFrame.Fits h s.version { nrAreas := 1, i, waiting := false } :=
      .inl ⟨Nat.one_pos, by simp only; omega⟩
    have hstep := nodesSystem_step hr .iterate (by simp [NodesState.pre, NodesState.inService, hs])
    rcases NodesFrame.Fits.iterate (s := s) hfit [] with ⟨he, -⟩ | ⟨-, hone, -⟩
    · simp only [NodesState.next, hs, Nat.zero_add, he] at hstep
      refine ⟨_, hstep, rfl, rfl, rfl, ?_⟩
      intro hmem
      exact absurd (ha k hmem) (lt_irrefl k)
    · simp at hone
  | succ m ih =>
    have hfit : NodesFrame.Fits h s.version { nrAreas := m+1+1, i, waiting := false } :=
      .inl ⟨Nat.succ_pos _, by simp only; omega⟩
    have hstep := nodesSystem_step hr .iterate (by simp [NodesState.pre, NodesState.inService, hs])
    rcases NodesFrame.Fits.iterate (s := s) hfit [] with ⟨-, hnone⟩ | ⟨-, -, he⟩
    · exact absurd ⟨le_refl i, by simp only; omega⟩ (hnone i)
    · simp only [NodesState.next, hs, he, Nat.add_sub_cancel] at hstep
      by_cases hnode : h.type s.version i = .node
      · have hdone := nodesSystem_step hstep .attachDone
          (by simp [NodesState.pre, NodesState.inService, hnode])
        apply ih (i := i+1) hdone rfl (by omega) hn
        intro j hj
        simp only [NodesState.next, hnode, ↓reduceIte, List.mem_cons] at hj
        rcases hj with rfl | hj
        · omega
        · exact ha j hj
      · apply ih (i := i+1) hstep (by simp [hnode]) (by omega) hn
        intro j hj
        simp only [hnode, ↓reduceIte] at hj
        exact ha j hj

/-- A version that is not covered leads to a child past the end or to a node area left out. -/
theorem not_allAttached_of_not_covered {v : ℕ} (hseen : h.seen v) (hc : ¬h.Covered v) :
    ∃ s, (nodesSystem h).Reachable s ∧ ¬s.AllAttached h := by
  have hv := h.seen_pos v hseen
  have hr0 : (nodesSystem h).Reachable {} := .init rfl
  have hr1 := nodesSystem_step hr0 (.publish v) ⟨rfl, hv.le, hseen⟩
  have hr2 := nodesSystem_step hr1 .serviceNodes rfl
  simp only [NodesState.next, hv.ne', ↓reduceIte] at hr2
  rcases Nat.eq_zero_or_eq_succ_pred (h.nrAreas v) with hz | hsucc
  · -- the counter wraps around, and the first descriptor is read
    have hmax : 0 < h.nrAreasMax := by
      by_contra hmax
      exact hc ⟨fun _ => by omega, fun i hi => by omega⟩
    have hr3 := nodesSystem_step hr2 .iterate rfl
    refine ⟨_, hr3, ?_⟩
    rintro ⟨hins, -⟩
    have hlt := hins (0, h.nrAreas v) (by
      simp [NodesState.next, NodesState.iterate, hz, u64, hmax])
    simp [hz] at hlt
  · have hnode : h.type v (h.nrAreas v-1) = .node := by
      by_contra hnode
      refine hc ⟨fun h0 => by omega, fun i hi => ?_⟩
      rwa [hi, Nat.add_sub_cancel] at hnode
    obtain ⟨s', hr', hstack, hversion, hprev, hmiss⟩ :=
      loop_skips_last (h.nrAreas v-1) hr2 (by simp only; rw [hsucc]; rfl) (Nat.zero_add _)
        (by simp only; omega) (by simp)
    refine ⟨s', hr', ?_⟩
    rintro ⟨-, hall⟩
    simp only at hversion hprev
    apply hmiss
    apply hall hstack (hprev.trans hversion.symm)
    · rw [hversion]
      omega
    · rw [hversion]
      exact hnode

end

/-- Every node area gets attached, and no descriptor past the end is read, exactly when no version
that the daemon sees has a node area as its last child, or no child at all. -/
theorem node_areas_attached_iff (h : RootHistory) :
    (∀ s, (nodesSystem h).Reachable s → s.AllAttached h) ↔ ∀ v, h.seen v → h.Covered v := by
  constructor
  · intro hall v hseen
    by_contra hc
    obtain ⟨s, hr, hs⟩ := not_allAttached_of_not_covered hseen hc
    exact hs (hall s hr)
  · intro hc s hr
    exact (nodesInv_reachable hc hr).allAttached

/-- A root with two node areas from version 1 on. -/
def twoNodeRoot : RootHistory where
  nrAreasMax := 1024
  nrAreas := fun v => if v = 0 then 0 else 2
  type := fun v i => if v = 0 then .invalid else if i < 2 then .node else .invalid
  seen := fun v => v = 1
  size := by norm_num
  nrAreas_le := by
    intro v
    split <;> norm_num
  nrAreas_zero := rfl
  nrAreas_mono := by
    intro v w hvw
    split <;> split <;> omega
  type_stable := by
    intro v w hvw i hi
    split at hi
    · omega
    · simp [show v ≠ 0 from by omega, show w ≠ 0 from by omega]
  seen_pos := by
    intro v hv
    omega

/-- The call returns, and the second node area has been left out. -/
theorem last_node_not_attached :
    ∃ s, (nodesSystem twoNodeRoot).Reachable s ∧ s.stack = [] ∧ s.vPrev = s.version ∧
      twoNodeRoot.type s.version 1 = .node ∧ 1 < twoNodeRoot.nrAreas s.version ∧
      1 ∉ s.attached ∧ ¬s.AllAttached twoNodeRoot := by
  have h0 : (nodesSystem twoNodeRoot).Reachable {} := .init rfl
  have hr := h0.run [.publish 1, .serviceNodes, .iterate, .attachDone, .iterate]
    ⟨⟨rfl, by decide, rfl⟩, rfl, rfl, ⟨rfl, by decide⟩, rfl, trivial⟩
  refine ⟨_, hr, by decide, by decide, by decide, by decide, by decide, ?_⟩
  rintro ⟨-, hall⟩
  exact absurd (hall (by decide) (by decide) 1 (by decide) (by decide)) (by decide)

end Tasvir
