import Mathlib.Tactic
import Tasvir.Container
import Tasvir.Subscription

/-! All exits of `tasvir_new` for a child of a container, in both builds: the descriptor may be
allocated by another thread, and what follows may fail on this one. -/
namespace Tasvir

/-- Compiled with or without TASVIR_DAEMON. -/
inductive Build
  | daemon
  | app
deriving DecidableEq, Repr

/-- What comes of a call of `tasvir_rpc_wait`: how often the request is executed, since it is
sent again every now and then, and which execution it returns the result of, if any. -/
structure WaitResult where
  executions : ℕ
  reply : Option ℕ
deriving DecidableEq, Repr

/-- What `tasvir_new` depends on besides the tables. -/
structure NewEnv where
  build : Build
  alloc : AllocEnv
  /-- the caller owns the parent -/
  isOwner : Bool
  /-- `ttld.node` is set -/
  hasNode : Bool
  booting : Bool
  allocRpc : WaitResult
  /-- `d->h` arrives while `tasvir_new` waits for it at boot -/
  headerSeen : Bool
  userRpc : WaitResult
  /-- the entry for the area is in the caller's copy of its node's table -/
  tableSeen : Bool

/-- `nr_areas` and `areas_d` of a `tasvir_node`. -/
structure NodeTable where
  nrAreas : ℕ
  areasD : ℕ → ℕ

/-- The parent container and the table of the caller's node. -/
structure NewState where
  log : Words
  parent : Container
  node : NodeTable

/-- `tasvir_area_add_user` at the daemon of the node for an area with no users, up to the list of
areas; the log of the node area is left out. -/
def NodeTable.addArea (t : NodeTable) (d : ℕ) : NodeTable × Bool :=
  if nrAreasLimit < t.nrAreas+1 then (t, false)
  else match (List.range (t.nrAreas+1)).find? fun i => t.areasD i = 0 || t.areasD i = d with
    | none => (t, true)
    | some i =>
      if t.areasD i = 0 then
        ({ nrAreas := t.nrAreas+1, areasD := Function.update t.areasD i d }, true)
      else (t, true)

/-- A request that is executed several times, with the result of each execution. -/
def executeTimes {σ ρ : Type} (f : σ → σ × ρ) : ℕ → σ → σ × List ρ
  | 0, s => (s, [])
  | k+1, s => ((executeTimes f k (f s).1).1, (f s).2 :: (executeTimes f k (f s).1).2)

/-- `tasvir_rpc_wait` for the function `f`, with its result if it returns 0. -/
def WaitResult.run {σ ρ : Type} (w : WaitResult) (f : σ → σ × ρ) (s : σ) : σ × Option ρ :=
  let r := executeTimes f w.executions s
  (r.1, w.reply.bind fun j => r.2[j]?)

/-- `tasvir_new_alloc_desc` at the owner. -/
def NewState.allocAtOwner (env : AllocEnv) (desc : Desc) (s : NewState) : NewState × Option ℕ :=
  let r := s.parent.tasvirNewAllocDesc env s.log desc
  ({ s with log := r.1, parent := r.2.1 }, r.2.2)

/-- `tasvir_new_alloc_desc`. -/
def NewState.allocDesc (env : NewEnv) (s : NewState) (desc : Desc) : NewState × Option ℕ :=
  if env.isOwner then s.allocAtOwner env.alloc desc
  else
    let r := env.allocRpc.run (NewState.allocAtOwner env.alloc desc) s
    (r.1, r.2.join)

/-- `tasvir_area_add_user` for the caller's node and its new area: true if it returns 0. -/
def NewState.addUser (env : NewEnv) (s : NewState) (d : ℕ) : NewState × Bool :=
  match env.build with
  | .daemon =>
    let r := s.node.addArea d
    ({ s with node := r.1 }, r.2)
  | .app =>
    let r := env.userRpc.run (fun t => t.addArea d) s.node
    ({ s with node := r.1 }, r.2.getD false && env.tableSeen)

/-- `tasvir_new` for a child of `parent`. The header that it writes is the new area's own, and
`tasvir_update_owner` leaves the descriptor as it is, since it has the caller as owner. -/
def NewState.tasvirNew (env : NewEnv) (s : NewState) (desc : Desc) : NewState × Option ℕ :=
  if env.build = .app ∧ env.hasNode = false then (s, none)
  else
    let r := s.allocDesc env (newDesc env.alloc desc)
    match r.2 with
    | none => (r.1, none)
    | some i =>
      -- "descriptor allocated but bootstrap data not received"
      if env.build = .daemon ∧ env.booting ∧ env.headerSeen = false then (r.1, none)
      else if env.hasNode then
        let u := r.1.addUser env (u64 (s.parent.data+i*sizeofDesc))
        (u.1, if u.2 then some i else none)
      else (r.1, some i)

/-- The count, the descriptors and the taken names of the container are as before. -/
structure Container.Unchanged (ct ct' : Container) : Prop where
  count : ct'.nrAreas = ct.nrAreas
  descs : ∀ i < ct.nrAreas, ct'.c i = ct.c i
  names : ∀ name, ct'.hasName name = ct.hasName name

/-- The owner puts the descriptor into the container. -/
def NewState.Committed (env : NewEnv) (s : NewState) (desc : Desc) : Prop :=
  (env.build = .daemon ∨ env.hasNode = true) ∧ (env.isOwner = true ∨ 0 < env.allocRpc.executions) ∧
  s.parent.nrAreas < s.parent.desc.nrAreasMax ∧ s.parent.hasName desc.name = false ∧
  u64 (s.parent.nextH+(newDesc env.alloc desc).len) < s.parent.diffLog0

/-- The node's table before the `j`-th execution of the request to subscribe to `d`. -/
def NodeTable.before (t : NodeTable) (d j : ℕ) : NodeTable := (fun t => (t.addArea d).1)^[j] t

/-- The caller's node is not subscribed to `d`: its table is full when the request is executed,
or the application thread gets no result or does not see the entry. -/
def NewState.Unsubscribed (env : NewEnv) (s : NewState) (d : ℕ) : Prop :=
  match env.build with
  | .daemon => nrAreasLimit ≤ s.node.nrAreas
  | .app => env.tableSeen = false ∨ ∀ j, env.userRpc.reply = some j →
      env.userRpc.executions ≤ j ∨ nrAreasLimit ≤ (s.node.before d j).nrAreas

/-- A step after that fails: the result of the first execution does not reach the caller, the
boot data does not, or the local node is not subscribed. -/
def NewState.LaterFails (env : NewEnv) (s : NewState) : Prop :=
  (env.isOwner = false ∧ env.allocRpc.reply ≠ some 0) ∨
  (env.build = .daemon ∧ env.booting = true ∧ env.headerSeen = false) ∨
  (env.hasNode = true ∧ s.Unsubscribed env (u64 (s.parent.data+s.parent.nrAreas*sizeofDesc)))

theorem executeTimes_getElem? {σ ρ : Type} (f : σ → σ × ρ) (n : ℕ) (s : σ) (j : ℕ) :
    (executeTimes f n s).2[j]? = if j < n then some (f ((fun s => (f s).1)^[j] s)).2 else none := by
  induction n generalizing s j with
  | zero => simp [executeTimes]
  | succ n ih =>
    cases j with
    | zero => simp [executeTimes]
    | succ j => simp [executeTimes, ih]

/-- A request that changes nothing in a state changes nothing when it is executed again. -/
theorem executeTimes_of_fixed {σ ρ : Type} {f : σ → σ × ρ} {s : σ} {r : ρ} (h : f s = (s, r))
    (n : ℕ) : executeTimes f n s = (s, List.replicate n r) := by
  induction n with
  | zero => rfl
  | succ n ih => simp only [executeTimes, h, ih, List.replicate_succ]

/-- What the owner of the container checks of a request. -/
def Container.Accepts (ct : Container) (desc : Desc) : Prop :=
  ct.nrAreas < ct.desc.nrAreasMax ∧ ct.hasName desc.name = false ∧
  u64 (ct.nextH+desc.len) < ct.diffLog0

theorem Container.alloc_refused {ct : Container} {desc : Desc} (h : ¬ct.Accepts desc)
    (env : AllocEnv) (log : Words) : ct.tasvirNewAllocDesc env log desc = (log, ct, none) := by
  rcases ct.alloc_cases env log desc with hr | ⟨log', x, -, hmax, hname, hspace, -⟩
  · exact hr
  · exact absurd ⟨hmax, hname, hspace⟩ h

/-- An accepted request takes the next descriptor, and is refused from then on. -/
theorem Container.alloc_accepted {ct : Container} {desc : Desc} (h : ct.Accepts desc)
    (env : AllocEnv) (log : Words) :
    ∃ log' ct', ct.tasvirNewAllocDesc env log desc = (log', ct', some ct.nrAreas) ∧
      ct'.nrAreas = ct.nrAreas+1 ∧ ¬ct'.Accepts desc := by
  obtain ⟨hmax, hname, hspace⟩ := h
  rcases ct.alloc_cases env log desc with hr | ⟨log', x, hr, -, -, -, -, -, -, -, hx, -⟩
  · simp [Container.tasvirNewAllocDesc, hmax.not_ge, hname, hspace.not_ge] at hr
  · refine ⟨log', _, hr, rfl, ?_⟩
    rintro ⟨-, hfree, -⟩
    have hne := Container.hasName_eq_false.mp hfree ct.nrAreas (Nat.lt_succ_self _)
    simp only [Function.update_self, hx] at hne
    exact hne (strncmp_self _ _ _)

section
variable {env : NewEnv} {s : NewState} {desc : Desc}

theorem NewState.allocAtOwner_refused (env : NewEnv) (h : ¬s.parent.Accepts desc) :
    s.allocAtOwner env.alloc desc = (s, none) := by
  simp only [NewState.allocAtOwner, Container.alloc_refused h]

theorem NewState.allocAtOwner_accepted (env : NewEnv) (h : s.parent.Accepts desc) :
    ∃ s', s.allocAtOwner env.alloc desc = (s', some s.parent.nrAreas) ∧
      s'.parent.nrAreas = s.parent.nrAreas+1 ∧ s'.node = s.node ∧ ¬s'.parent.Accepts desc := by
  obtain ⟨log', ct', hr, hn, ha⟩ := Container.alloc_accepted h env.alloc s.log
  refine ⟨{ s with log := log', parent := ct' }, ?_, hn, rfl, ha⟩
  simp only [NewState.allocAtOwner, hr]

/-- A request that the owner refuses, or never gets, has no effect. -/
theorem NewState.allocDesc_refused
    (h : ¬((env.isOwner = true ∨ 0 < env.allocRpc.executions) ∧ s.parent.Accepts desc)) :
    s.allocDesc env desc = (s, none) := by
  by_cases ha : s.parent.Accepts desc
  · have ho : env.isOwner = false := by
      by_contra ho
      exact h ⟨.inl (by simpa using ho), ha⟩
    have he : env.allocRpc.executions = 0 := by
      by_contra he
      exact h ⟨.inr (Nat.pos_of_ne_zero he), ha⟩
    cases hj : env.allocRpc.reply <;>
      simp [NewState.allocDesc, ho, WaitResult.run, he, executeTimes, hj]
  · have hr := NewState.allocAtOwner_refused env ha
    cases ho : env.isOwner with
    | true => simp only [NewState.allocDesc, ho, ↓reduceIte, hr]
    | false =>
      have hj : ∀ j : ℕ, ((List.replicate env.allocRpc.executions (none : Option ℕ))[j]?).join =
          none := by
        intro j
        rw [List.getElem?_replicate]
        split <;> rfl
      cases hrep : env.allocRpc.reply <;>
        simp [NewState.allocDesc, ho, WaitResult.run, executeTimes_of_fixed hr, hrep, hj]

/-- A request that the owner accepts takes one descriptor however often it is executed, and only
the first execution returns it. -/
theorem NewState.allocDesc_accepted (he : env.isOwner = true ∨ 0 < env.allocRpc.executions)
    (ha : s.parent.Accepts desc) :
    ∃ s', s.allocDesc env desc =
        (s', if env.isOwner = false ∧ env.allocRpc.reply ≠ some 0 then none
          else some s.parent.nrAreas) ∧
      s'.parent.nrAreas = s.parent.nrAreas+1 ∧ s'.node = s.node := by
  obtain ⟨s', hr, hn, hnode, hna⟩ := NewState.allocAtOwner_accepted env ha
  refine ⟨s', ?_, hn, hnode⟩
  cases ho : env.isOwner with
  | true => simp [NewState.allocDesc, ho, hr]
  | false =>
    obtain ⟨k, hk⟩ : ∃ k, env.allocRpc.executions = k+1 := by
      rcases he with h | h
      · simp [ho] at h
      · exact ⟨_, (Nat.succ_pred_eq_of_pos h).symm⟩
    have hrun : executeTimes (NewState.allocAtOwner env.alloc desc) (k+1) s =
        (s', some s.parent.nrAreas :: List.replicate k none) := by
      simp only [executeTimes, hr,
        executeTimes_of_fixed (NewState.allocAtOwner_refused env hna)]
    simp only [NewState.allocDesc, ho, WaitResult.run, hk, hrun]
    rcases env.allocRpc.reply with _ | _ | j
    · simp
    · simp
    · have hj : ((List.replicate k (none : Option ℕ))[j]?).join = none := by
        rw [List.getElem?_replicate]
        split <;> rfl
      simp [hj]

theorem NodeTable.addArea_snd (t : NodeTable) (d : ℕ) :
    (t.addArea d).2 = false ↔ nrAreasLimit ≤ t.nrAreas := by
  unfold NodeTable.addArea
  split
  · simp only [true_iff]
    omega
  · split
    · simp only [Bool.true_eq_false, false_iff]
      omega
    · split <;> simp only [Bool.true_eq_false, false_iff] <;> omega

theorem NewState.addUser_snd (env : NewEnv) (s : NewState) (d : ℕ) :
    (s.addUser env d).2 = false ↔ s.Unsubscribed env d := by
  unfold NewState.addUser NewState.Unsubscribed
  cases env.build with
  | daemon => exact NodeTable.addArea_snd _ _
  | app =>
    have hget := executeTimes_getElem? (fun t : NodeTable => t.addArea d) env.userRpc.executions
      s.node
    cases hrep : env.userRpc.reply with
    | none => simp [WaitResult.run, hrep]
    | some j =>
      have hsnd := NodeTable.addArea_snd (s.node.before d j) d
      simp only [WaitResult.run, hrep, Option.bind_some, hget, Bool.and_eq_false_iff]
      by_cases hj : j < env.userRpc.executions
      · simp only [hj, ↓reduceIte, Option.getD_some, Option.some.injEq, forall_eq', hj.not_ge,
          false_or]
        rw [or_comm]
        exact or_congr Iff.rfl hsnd
      · simp [hj, Nat.le_of_not_lt hj]

theorem NewState.addUser_parent (d : ℕ) : (s.addUser env d).1.parent = s.parent := by
  unfold NewState.addUser
  cases env.build <;> rfl

theorem NewState.unsubscribed_congr {s' : NewState} (h : s'.node = s.node) (d : ℕ) :
    s'.Unsubscribed env d ↔ s.Unsubscribed env d := by
  unfold NewState.Unsubscribed
  rw [h]

theorem NewState.committed_iff : s.Committed env desc ↔
    (env.build = .daemon ∨ env.hasNode = true) ∧
    (env.isOwner = true ∨ 0 < env.allocRpc.executions) ∧
    s.parent.Accepts (newDesc env.alloc desc) := Iff.rfl

/-- Without a committed descriptor the call fails and has no effect. -/
theorem NewState.tasvirNew_of_not_committed (h : ¬s.Committed env desc) :
    s.tasvirNew env desc = (s, none) := by
  unfold NewState.tasvirNew
  by_cases hb : env.build = .app ∧ env.hasNode = false
  · rw [if_pos hb]
  · have hb' : env.build = .daemon ∨ env.hasNode = true := by
      cases hbd : env.build <;> cases hn : env.hasNode <;> simp_all
    have hr : s.allocDesc env (newDesc env.alloc desc) = (s, none) := by
      apply NewState.allocDesc_refused
      intro hc
      exact h (NewState.committed_iff.mpr ⟨hb', hc⟩)
    rw [if_neg hb]
    simp only [hr]

/-- With one the parent is changed, and the call fails if a later step does. -/
theorem NewState.tasvirNew_of_committed (h : s.Committed env desc) :
    (s.tasvirNew env desc).1.parent.nrAreas = s.parent.nrAreas+1 ∧
    ((s.tasvirNew env desc).2 = none ↔ s.LaterFails env) := by
  obtain ⟨hb, he, ha⟩ := NewState.committed_iff.mp h
  obtain ⟨s', hr, hn, hnode⟩ := NewState.allocDesc_accepted he ha
  have hb' : ¬(env.build = .app ∧ env.hasNode = false) := by
    rintro ⟨h1, h2⟩
    simp [h1, h2] at hb
  unfold NewState.tasvirNew NewState.LaterFails
  rw [if_neg hb']
  simp only [hr]
  by_cases hlost : env.isOwner = false ∧ env.allocRpc.reply ≠ some 0
  · simp only [hlost, ne_eq, not_false_eq_true, and_self, ↓reduceIte, true_or, hn]
  · simp only [hlost, ↓reduceIte, false_or]
    by_cases hboot : env.build = .daemon ∧ env.booting = true ∧ env.headerSeen = false
    · rw [if_pos hboot]
      exact ⟨hn, by simp [hboot]⟩
    · rw [if_neg hboot]
      cases hhas : env.hasNode with
      | false => exact ⟨hn, by simp [hboot]⟩
      | true =>
        have hsnd := s'.addUser_snd env
          (u64 (s.parent.data+s.parent.nrAreas*sizeofDesc))
        rw [NewState.unsubscribed_congr hnode] at hsnd
        simp only [↓reduceIte, NewState.addUser_parent, hn, true_and, hboot, false_or]
        rw [← hsnd]
        simp

end

/-- A `tasvir_new` that returns NULL leaves no trace in the parent, unless the owner has put the
descriptor into it and a later step fails: there is no way back from there. -/
theorem failed_new_leaves_no_trace_iff (env : NewEnv) (s : NewState) (desc : Desc) :
    ((s.tasvirNew env desc).2 = none → s.parent.Unchanged (s.tasvirNew env desc).1.parent) ↔
      ¬(s.Committed env desc ∧ s.LaterFails env) := by
  by_cases hc : s.Committed env desc
  · obtain ⟨hn, hfail⟩ := NewState.tasvirNew_of_committed hc
    rw [hfail]
    constructor
    · rintro h ⟨-, hl⟩
      have hcount := (h hl).count
      omega
    · intro h hl
      exact absurd ⟨hc, hl⟩ h
  · rw [NewState.tasvirNew_of_not_committed hc]
    simp only [hc, false_and, not_false_eq_true, iff_true]
    intro _
    exact ⟨rfl, fun _ _ => rfl, fun _ => rfl⟩

/-- The daemon that owns the container, with a node that has as many areas as it can. -/
def exampleFull : NewState where
  log := fun _ => 0
  parent := exampleRoot
  node := { nrAreas := nrAreasLimit, areasD := fun i => i+1 }

def exampleDaemon : NewEnv where
  build := .daemon
  alloc := exampleEnv
  isOwner := true
  hasNode := true
  booting := false
  allocRpc := { executions := 0, reply := none }
  headerSeen := true
  userRpc := { executions := 0, reply := none }
  tableSeen := true

/-- The call fails, the name is taken, and a second attempt is refused. -/
theorem failed_new_takes_name :
    (exampleFull.tasvirNew exampleDaemon { len := 100 }).2 = none ∧
    ¬exampleFull.parent.Unchanged (exampleFull.tasvirNew exampleDaemon { len := 100 }).1.parent := by
  have hc : exampleFull.Committed exampleDaemon { len := 100 } :=
    ⟨.inl rfl, .inl rfl, by decide +kernel, by decide +kernel, by decide +kernel⟩
  have hl : exampleFull.LaterFails exampleDaemon := .inr (.inr ⟨rfl, le_refl nrAreasLimit⟩)
  obtain ⟨hn, hfail⟩ := NewState.tasvirNew_of_committed hc
  refine ⟨hfail.mpr hl, ?_⟩
  intro hu
  have hcount := hu.count
  omega

end Tasvir
