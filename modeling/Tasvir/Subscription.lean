import Mathlib.Tactic
import Tasvir.Machine

/-! Subscriptions: the list of areas that a node keeps in `tasvir_node`, the list
of users that the owner keeps in the area header, and `tasvir_area_add_user`,
which fills both, in its daemon build, at an owning and at any other application
thread. A call that waits for an RPC services other requests meanwhile, so each
thread has a stack of waiting calls. -/
namespace Tasvir

/-- TASVIR_NR_AREAS. -/
def nrAreasLimit : ℕ := 1024

/-- TASVIR_NR_NODES. -/
def nrNodesLimit : ℕ := 64

/-- The threads and their nodes, the daemon of each node and the owner of each area. -/
structure SubEnv where
  nodeOf : ℕ → ℕ
  daemonOf : ℕ → ℕ
  owner : ℕ → ℕ
  nodeOf_daemonOf : ∀ n, nodeOf (daemonOf n) = n

/-- The thread runs the daemon build. -/
def SubEnv.isDaemon (e : SubEnv) (t : ℕ) : Bool := e.daemonOf (e.nodeOf t) = t

/-- `users[i]` of the header; `version` is `&version.1->areas_v[version.2]`. -/
structure User where
  node : ℕ
  version : ℕ × ℤ
deriving DecidableEq, Repr

/-- A `tasvir_area_add_user` that waits for its RPC. -/
structure AddUserFrame where
  d : ℕ
  node : ℕ
  idx : ℤ
deriving DecidableEq, Repr

/-- `created` says that `tasvir_new` has set the header up, with LOCAL on the
owner's node and ACTIVE. `toOwner` and `toDaemon` are the requests sent so far;
with resends each may arrive any number of times. -/
structure SubState where
  nrAreas : ℕ → ℕ := fun _ => 0
  areasD : ℕ → ℕ → Option ℕ := fun _ _ => none
  created : ℕ → Bool := fun _ => false
  nrUsers : ℕ → ℕ := fun _ => 0
  users : ℕ → ℕ → Option User := fun _ _ => none
  stack : ℕ → List AddUserFrame := fun _ => []
  toOwner : List AddUserFrame := []
  toDaemon : List (ℕ × ℕ) := []

/-- What the calling thread sees in its copies of the area and of its node. -/
structure SubView where
  active : Bool
  attached : Bool
  nrAreas : ℕ
deriving DecidableEq, Repr

namespace SubState
variable (e : SubEnv)

/-- `node` is among `users[0..nr_users)`. -/
def hasUser (s : SubState) (d node : ℕ) : Bool :=
  (List.range (s.nrUsers d)).any fun i => (s.users d i).any fun u => u.node = node

/-- `tasvir_area_is_local`, on the node of thread `t`. -/
def isLocal (s : SubState) (t d : ℕ) : Bool := s.created d && e.nodeOf (e.owner d) = e.nodeOf t

/-- The owner reads its own copy. Others may see an older state, in which a node
is a user only if it is one now. -/
def Sees (s : SubState) (t d node : ℕ) (v : SubView) : Prop :=
  (e.owner d = t → v.active = s.created d ∧ v.attached = (s.created d && s.hasUser d node)) ∧
  (v.attached = true → s.hasUser d node = true) ∧ v.nrAreas ≤ s.nrAreas (e.nodeOf t)

/-- The daemon's loop over the areas of its node: the new tables and the index. -/
def subscribe (s : SubState) (node d : ℕ) : SubState × ℤ :=
  match (List.range (s.nrAreas node+1)).find? fun i =>
      (s.areasD node i).isNone || s.areasD node i = some d with
  | none => (s, -1)
  | some i =>
    if s.areasD node i = none then
      ({ s with
        nrAreas := Function.update s.nrAreas node (s.nrAreas node+1)
        areasD := Function.update s.areasD node (Function.update (s.areasD node) i (some d)) }, i)
    else (s, i)

/-- The application's loop over the areas of its node that it sees. -/
def lookup (s : SubState) (node d n : ℕ) (idx : ℤ) : ℤ :=
  match (List.range n).find? fun i => s.areasD node i = some d with
  | none => idx
  | some i => i

/-- The end of `tasvir_area_add_user`, from the test of the owner on. -/
def addEntry (s : SubState) (t d node : ℕ) (idx : ℤ) (v : SubView) : SubState :=
  if e.owner d ≠ t then s
  else
    -- an application looks the index up in its own node's table
    let idx := if e.isDaemon t = false ∧ node = e.nodeOf t then s.lookup node d v.nrAreas idx else idx
    if e.isDaemon t = false ∧ node = e.nodeOf t ∧ idx = -1 then s
    -- no room in the header
    else if nrNodesLimit < s.nrUsers d+1 then s
    else
      { s with
        nrUsers := Function.update s.nrUsers d (s.nrUsers d+1)
        users :=
          match (List.range (s.nrUsers d+1)).find? fun i => (s.users d i).isNone with
          | none => s.users
          | some i => Function.update s.users d
              (Function.update (s.users d) i (some { node, version := (node, idx) })) }

/-- Wait for an RPC. -/
def push (s : SubState) (t : ℕ) (f : AddUserFrame) : SubState :=
  { s with stack := Function.update s.stack t (f :: s.stack t) }

/-- `tasvir_area_add_user` after boot, by thread `t`, up to its return or its RPC. -/
def tasvirAreaAddUser (s : SubState) (t d node : ℕ) (idx : ℤ) (v : SubView) : SubState :=
  if e.isDaemon t = false ∧ s.isLocal e t d = true ∧ v.active = false then s
  else if v.attached then s
  else if node = e.nodeOf t then
    if e.isDaemon t then
      if nrAreasLimit < s.nrAreas node+1 then s
      else
        -- the daemon keeps the table of its node
        let r := s.subscribe node d
        if s.isLocal e t d = false then
          -- the owner is on another node: the call goes on there with the index
          { r.1 with toOwner := ⟨d, node, r.2⟩ :: r.1.toOwner }.push t ⟨d, node, r.2⟩
        else r.1.addEntry e t d node r.2 v
    -- an application asks its daemon first
    else { s with toDaemon := (d, node) :: s.toDaemon }.push t ⟨d, node, idx⟩
  else s.addEntry e t d node idx v

/-- The RPC of the innermost waiting call is over; `ok` is false when it failed
or returned an error. -/
def resume (s : SubState) (t : ℕ) (f : AddUserFrame) (ok : Bool) (v : SubView) : SubState :=
  let s := { s with stack := Function.update s.stack t (s.stack t).tail }
  if e.isDaemon t || !ok then s else s.addEntry e t f.d f.node f.idx v

end SubState

inductive SubAct
  /-- `tasvir_new` of area `d` by its owner, up to the call of `tasvir_area_add_user` -/
  | create (d : ℕ)
  /-- a call by `tasvir_attach` or `tasvir_new` -/
  | call (t d : ℕ) (v : SubView)
  /-- a request executed by the owner of the area, or by the daemon of the node -/
  | atOwner (f : AddUserFrame) (v : SubView)
  | atDaemon (d node : ℕ) (v : SubView)
  | resume (t : ℕ) (f : AddUserFrame) (ok : Bool) (v : SubView)

namespace SubState
variable (e : SubEnv)

/-- A request is only routed to the owner where LOCAL is set. `tasvir_new` goes on
to the header after the calls made in its wait have returned. -/
def pre (s : SubState) : SubAct → Prop
  | .create d => s.created d = false ∧ ∀ f ∈ s.stack (e.owner d), f.d ≠ d
  | .call t d v => s.Sees e t d (e.nodeOf t) v
  | .atOwner f v => f ∈ s.toOwner ∧ s.created f.d = true ∧ s.Sees e (e.owner f.d) f.d f.node v
  | .atDaemon d node v => (d, node) ∈ s.toDaemon ∧ s.Sees e (e.daemonOf node) d node v
  | .resume t f _ v => (s.stack t).head? = some f ∧ v.nrAreas ≤ s.nrAreas (e.nodeOf t)

def next (s : SubState) : SubAct → SubState
  | .create d =>
    { s with
      created := Function.update s.created d true
      nrUsers := Function.update s.nrUsers d 0
      users := Function.update s.users d fun _ => none }
  | .call t d v => s.tasvirAreaAddUser e t d (e.nodeOf t) (-1) v
  | .atOwner f v => s.tasvirAreaAddUser e (e.owner f.d) f.d f.node f.idx v
  | .atDaemon d node v => s.tasvirAreaAddUser e (e.daemonOf node) d node (-1) v
  | .resume t f ok v => s.resume e t f ok v

/-- The thread that runs a call of `tasvir_area_add_user`, and on which area and node. -/
def begins : SubAct → Option (ℕ × ℕ × ℕ)
  | .call t d _ => some (t, d, e.nodeOf t)
  | .atOwner f _ => some (e.owner f.d, f.d, f.node)
  | _ => none

/-- The condition on a step: an owning application thread does not begin to add
its own node while a call of its that does so is waiting. -/
def notNested (s : SubState) (a : SubAct) : Prop :=
  match begins e a with
  | none => True
  | some (t, d, node) => e.owner d = t → e.isDaemon t = false → node = e.nodeOf t →
      ∀ f ∈ s.stack t, f.d ≠ d

end SubState

def subscriptionSystem (e : SubEnv) : Machine.System SubState SubAct where
  init := fun s => s = {}
  pre := SubState.pre e
  next := SubState.next e

/-- The tables agree: the statement about one area and about one node. -/
structure SubState.Agree (s : SubState) : Prop where
  users_some : ∀ d, s.created d = true → ∀ i < s.nrUsers d, (s.users d i).isSome
  users_node : ∀ d, s.created d = true → ∀ i < s.nrUsers d, ∀ j < s.nrUsers d, ∀ u u',
    s.users d i = some u → s.users d j = some u' → u.node = u'.node → i = j
  users_max : ∀ d, s.created d = true → s.nrUsers d ≤ nrNodesLimit
  version : ∀ d, s.created d = true → ∀ i < s.nrUsers d, ∀ u, s.users d i = some u →
    u.version.1 = u.node ∧ ∃ k : ℕ, u.version.2 = k ∧ k < s.nrAreas u.node ∧
      s.areasD u.node k = some d
  areas_some : ∀ n, ∀ i < s.nrAreas n, (s.areasD n i).isSome
  areas_inj : ∀ n, ∀ i < s.nrAreas n, ∀ j < s.nrAreas n, s.areasD n i = s.areasD n j → i = j

/-- `idx` is an index of area `d` in the list of `node`. -/
def SubState.Valid (s : SubState) (node d : ℕ) (idx : ℤ) : Prop :=
  ∃ k : ℕ, idx = k ∧ k < s.nrAreas node ∧ s.areasD node k = some d

/-- What holds in every state reached. -/
structure SubInv (e : SubEnv) (s : SubState) : Prop where
  agree : s.Agree
  users_none : ∀ d, s.created d = true → ∀ i, s.nrUsers d ≤ i → s.users d i = none
  areas_none : ∀ n i, s.nrAreas n ≤ i → s.areasD n i = none
  toOwner_valid : ∀ f ∈ s.toOwner, s.Valid f.node f.d f.idx
  frame_node : ∀ t, ∀ f ∈ s.stack t, f.node = e.nodeOf t
  frame_valid : ∀ t, ∀ f ∈ s.stack t, f.idx = -1 ∨ s.Valid f.node f.d f.idx
  /-- a waiting call of an owning application thread is the only one for its area,
  and its node is not a user yet -/
  frame_free : ∀ t, e.isDaemon t = false → ∀ f ∈ s.stack t, e.owner f.d = t →
    s.created f.d = true → s.hasUser f.d (e.nodeOf t) = false
  frame_once : ∀ t, e.isDaemon t = false →
    (s.stack t).Pairwise fun f g => e.owner f.d = t → f.d ≠ g.d

theorem find_first_none {α : Type} (f : ℕ → Option α) (n : ℕ) (h : ∀ i < n, (f i).isSome)
    (hn : f n = none) : ((List.range (n+1)).find? fun i => (f i).isNone) = some n := by
  rw [List.find?_range_eq_some]
  refine ⟨by rw [hn]; rfl, List.mem_range.mpr (Nat.lt_succ_self n), ?_⟩
  intro j hj
  simpa [Option.isSome_iff_ne_none] using h j hj

theorem SubState.hasUser_iff {s : SubState} {d node : ℕ} :
    s.hasUser d node = true ↔ ∃ i < s.nrUsers d, ∃ u, s.users d i = some u ∧ u.node = node := by
  simp [SubState.hasUser, Option.any_eq_true]

section
variable {e : SubEnv} {s : SubState}

/-- Entries in the list of areas are never moved. -/
theorem SubState.Valid.mono {s' : SubState} {node d : ℕ} {idx : ℤ} (h : s.Valid node d idx)
    (hnr : s.nrAreas node ≤ s'.nrAreas node)
    (hd : ∀ i < s.nrAreas node, s'.areasD node i = s.areasD node i) : s'.Valid node d idx := by
  obtain ⟨k, rfl, hk, hkd⟩ := h
  exact ⟨k, rfl, lt_of_lt_of_le hk hnr, by rw [hd k hk]; exact hkd⟩

/-- The daemon finds the area or appends it. -/
theorem SubInv.subscribe_cases (hi : SubInv e s) (node d : ℕ) :
    (∃ i < s.nrAreas node, s.areasD node i = some d ∧ s.subscribe node d = (s, (i : ℤ))) ∨
    (∀ i < s.nrAreas node, s.areasD node i ≠ some d) ∧
    s.subscribe node d = ({ s with
      nrAreas := Function.update s.nrAreas node (s.nrAreas node+1)
      areasD := Function.update s.areasD node
        (Function.update (s.areasD node) (s.nrAreas node) (some d)) }, (s.nrAreas node : ℤ)) := by
  have hsome := hi.agree.areas_some node
  have hnone := hi.areas_none node (s.nrAreas node) le_rfl
  by_cases hex : ∃ i < s.nrAreas node, s.areasD node i = some d
  · left
    obtain ⟨i, hin, hd⟩ := hex
    have hfind : ((List.range (s.nrAreas node+1)).find? fun i =>
        (s.areasD node i).isNone || s.areasD node i = some d) = some i := by
      rw [List.find?_range_eq_some]
      refine ⟨by simp [hd], List.mem_range.mpr (by omega), ?_⟩
      intro j hj
      -- an earlier hit would be a second entry for `d`
      have hjs := hsome j (by omega)
      have hjd : s.areasD node j ≠ some d := by
        intro h
        exact absurd (hi.agree.areas_inj node j (by omega) i hin (by rw [h, hd])) (by omega)
      simpa [hjd] using hjs
    refine ⟨i, hin, hd, ?_⟩
    simp only [SubState.subscribe, hfind, hd, reduceCtorEq, ↓reduceIte]
  · right
    push Not at hex
    have hfind : ((List.range (s.nrAreas node+1)).find? fun i =>
        (s.areasD node i).isNone || s.areasD node i = some d) = some (s.nrAreas node) := by
      rw [List.find?_range_eq_some]
      refine ⟨by simp [hnone], List.mem_range.mpr (by omega), ?_⟩
      intro j hj
      simpa [hex j hj] using hsome j hj
    refine ⟨hex, ?_⟩
    simp only [SubState.subscribe, hfind, hnone, ↓reduceIte]

theorem SubInv.subscribe (hi : SubInv e s) (node d : ℕ) :
    SubInv e (s.subscribe node d).1 ∧ (s.subscribe node d).1.Valid node d (s.subscribe node d).2 ∧
    (s.subscribe node d).1.created = s.created ∧ (s.subscribe node d).1.nrUsers = s.nrUsers ∧
    (s.subscribe node d).1.users = s.users ∧ (s.subscribe node d).1.stack = s.stack ∧
    s.nrAreas node ≤ (s.subscribe node d).1.nrAreas node := by
  rcases hi.subscribe_cases node d with ⟨i, hin, hd, hr⟩ | ⟨hno, hr⟩
  · rw [hr]
    exact ⟨hi, ⟨i, rfl, hin, hd⟩, rfl, rfl, rfl, rfl, le_rfl⟩
  · rw [hr]
    have hag := hi.agree
    have hnone := hi.areas_none node (s.nrAreas node) le_rfl
    -- the table only grows, so an index that was valid stays so
    have hmono : ∀ n d' idx, s.Valid n d' idx → SubState.Valid { s with
        nrAreas := Function.update s.nrAreas node (s.nrAreas node+1)
        areasD := Function.update s.areasD node
          (Function.update (s.areasD node) (s.nrAreas node) (some d)) } n d' idx := by
      intro n d' idx h
      apply h.mono
      · simp only [Function.update_apply]
        grind
      · intro i hin
        by_cases hn : n = node
        · subst hn
          simp only [Function.update_self]
          exact Function.update_of_ne (by omega) _ _
        · simp only [Function.update_of_ne hn]
    refine ⟨?_, ⟨s.nrAreas node, rfl, by simp, by simp⟩, rfl, rfl, rfl, rfl, by simp⟩
    constructor
    case agree =>
      constructor
      case version =>
        intro d' hd' i hin u hu
        obtain ⟨hn, k, hk⟩ := hag.version d' hd' i hin u hu
        exact ⟨hn, hmono _ _ _ ⟨k, hk⟩⟩
      case areas_some =>
        intro n i hin
        have := hag.areas_some n i
        simp only [Function.update_apply] at hin ⊢
        grind
      case areas_inj =>
        intro n i hin j hjn hij
        have := hag.areas_inj n i
        have := hag.areas_some n
        simp only [Function.update_apply] at hin hjn hij
        grind
      · exact hag.users_some
      · exact hag.users_node
      · exact hag.users_max
    case users_none => exact hi.users_none
    case areas_none =>
      intro n i hin
      have := hi.areas_none n i
      simp only [Function.update_apply] at hin ⊢
      grind
    case toOwner_valid => exact fun f hf => hmono _ _ _ (hi.toOwner_valid f hf)
    case frame_node => exact hi.frame_node
    case frame_valid =>
      intro t f hf
      rcases hi.frame_valid t f hf with h | h
      · exact Or.inl h
      · exact Or.inr (hmono _ _ _ h)
    case frame_free => exact hi.frame_free
    case frame_once => exact hi.frame_once

theorem SubState.lookup_cases (s : SubState) (node d n : ℕ) (idx : ℤ) (hn : n ≤ s.nrAreas node) :
    s.lookup node d n idx = idx ∨ s.Valid node d (s.lookup node d n idx) := by
  unfold SubState.lookup
  cases hf : (List.range n).find? fun i => s.areasD node i = some d with
  | none => exact Or.inl rfl
  | some i =>
    rw [List.find?_range_eq_some] at hf
    right
    exact ⟨i, rfl, lt_of_lt_of_le (List.mem_range.mp hf.2.1) hn, by simpa using hf.1⟩

/-- The owner leaves the table alone or appends an entry with a valid index. -/
theorem SubInv.addEntry_cases (hi : SubInv e s) (t d node : ℕ) (idx : ℤ) (v : SubView)
    (hd : s.created d = true) (hv : v.nrAreas ≤ s.nrAreas (e.nodeOf t))
    (hidx : s.Valid node d idx ∨ idx = -1 ∧ e.isDaemon t = false ∧ node = e.nodeOf t) :
    s.addEntry e t d node idx v = s ∨
    e.owner d = t ∧ s.nrUsers d+1 ≤ nrNodesLimit ∧ ∃ idx', s.Valid node d idx' ∧
      s.addEntry e t d node idx v = { s with
        nrUsers := Function.update s.nrUsers d (s.nrUsers d+1)
        users := Function.update s.users d
          (Function.update (s.users d) (s.nrUsers d) (some { node, version := (node, idx') })) } := by
  have hfind := find_first_none (s.users d) (s.nrUsers d) (hi.agree.users_some d hd)
    (hi.users_none d hd _ le_rfl)
  by_cases ho : e.owner d = t
  · by_cases hmax : nrNodesLimit < s.nrUsers d+1
    · left
      simp [SubState.addEntry, ho, hmax]
    · by_cases hlocal : e.isDaemon t = false ∧ node = e.nodeOf t
      · obtain ⟨hdm, hnode⟩ := hlocal
        subst hnode
        have hlook := s.lookup_cases (e.nodeOf t) d v.nrAreas idx hv
        by_cases hneg : s.lookup (e.nodeOf t) d v.nrAreas idx = -1
        · left
          simp [SubState.addEntry, ho, hdm, hneg]
        · right
          refine ⟨ho, by omega, s.lookup (e.nodeOf t) d v.nrAreas idx, ?_, ?_⟩
          · rcases hlook with h | h
            · rcases hidx with hval | ⟨hm, -⟩
              · rw [h]
                exact hval
              · exact absurd (h.trans hm) hneg
            · exact h
          · simp only [SubState.addEntry, ho, hdm, hneg, hmax, hfind, ne_eq, not_true, and_self,
              and_false, ↓reduceIte]
      · right
        rcases hidx with hval | ⟨-, hl⟩
        · refine ⟨ho, by omega, idx, hval, ?_⟩
          have hguard : ¬(e.isDaemon t = false ∧ node = e.nodeOf t ∧ idx = -1) :=
            fun h => hlocal ⟨h.1, h.2.1⟩
          simp only [SubState.addEntry, ho, hlocal, hguard, hmax, hfind, ne_eq, not_true, ↓reduceIte]
        · exact absurd hl hlocal
  · left
    simp [SubState.addEntry, ho]

/-- Users of an area that is not created yet do not matter. -/
theorem SubInv.addEntry_uncreated (hi : SubInv e s) (t d node : ℕ) (idx : ℤ) (v : SubView)
    (hd : s.created d = false) : SubInv e (s.addEntry e t d node idx v) := by
  -- all branches change the users of `d` at most
  have hshape : ∃ n U, s.addEntry e t d node idx v = { s with
      nrUsers := Function.update s.nrUsers d n
      users := Function.update s.users d U } := by
    have hself : s = { s with
        nrUsers := Function.update s.nrUsers d (s.nrUsers d)
        users := Function.update s.users d (s.users d) } := by
      rw [Function.update_eq_self, Function.update_eq_self]
    unfold SubState.addEntry
    by_cases ho : e.owner d ≠ t
    · rw [if_pos ho]
      exact ⟨_, _, hself⟩
    · rw [if_neg ho]
      generalize (if e.isDaemon t = false ∧ node = e.nodeOf t then s.lookup node d v.nrAreas idx
        else idx) = idx'
      simp only
      split
      · exact ⟨_, _, hself⟩
      · split
        · exact ⟨_, _, hself⟩
        · cases (List.range (s.nrUsers d+1)).find? fun i => (s.users d i).isNone with
          | none => exact ⟨s.nrUsers d+1, s.users d, by rw [Function.update_eq_self d s.users]⟩
          | some i => exact ⟨_, _, rfl⟩
  obtain ⟨n, U, hr⟩ := hshape
  rw [hr]
  -- and the clauses are about areas that are created
  have hne : ∀ d', s.created d' = true → d' ≠ d := by
    intro d' hd' h
    rw [h, hd] at hd'
    cases hd'
  have hag := hi.agree
  constructor
  case agree =>
    constructor <;> simp only [Function.update_apply]
    case areas_some => exact hag.areas_some
    case areas_inj => exact hag.areas_inj
    case version =>
      intro d' hd'
      simp only [hne d' hd', ↓reduceIte]
      exact hag.version d' hd'
    all_goals
      intro d' hd'
      simp only [hne d' hd', ↓reduceIte]
      first
        | exact hag.users_some d' hd'
        | exact hag.users_node d' hd'
        | exact hag.users_max d' hd'
  case users_none =>
    intro d' hd'
    simp only [Function.update_of_ne (hne d' hd')]
    exact hi.users_none d' hd'
  case frame_free =>
    intro t' ht' f hf ho hc
    have h := hi.frame_free t' ht' f hf ho hc
    simpa only [SubState.hasUser, Function.update_of_ne (hne f.d hc)] using h
  · exact hi.areas_none
  · exact hi.toOwner_valid
  · exact hi.frame_node
  · exact hi.frame_valid
  · exact hi.frame_once

/-- A node that is not a user yet is added. -/
theorem SubInv.addEntry (hi : SubInv e s) (t d node : ℕ) (idx : ℤ) (v : SubView)
    (hv : v.nrAreas ≤ s.nrAreas (e.nodeOf t))
    (hidx : s.Valid node d idx ∨ idx = -1 ∧ e.isDaemon t = false ∧ node = e.nodeOf t)
    (hnew : e.owner d = t → s.created d = true → s.hasUser d node = false)
    (hframe : e.owner d = t → e.isDaemon t = false → node = e.nodeOf t → ∀ f ∈ s.stack t, f.d ≠ d) :
    SubInv e (s.addEntry e t d node idx v) := by
  cases hd : s.created d with
  | false => exact hi.addEntry_uncreated t d node idx v hd
  | true =>
    rcases hi.addEntry_cases t d node idx v hd hv hidx with hr | ⟨ho, hmax, idx', hval, hr⟩
    · rw [hr]
      exact hi
    · rw [hr]
      have hag := hi.agree
      have hno : ∀ i < s.nrUsers d, ∀ u, s.users d i = some u → u.node ≠ node := by
        intro i hin u hu hn
        have h := hnew ho hd
        rw [SubState.hasUser_iff.mpr ⟨i, hin, u, hu, hn⟩] at h
        cases h
      constructor
      case agree =>
        constructor <;> simp only [Function.update_apply]
        case areas_some => exact hag.areas_some
        case areas_inj => exact hag.areas_inj
        case users_max => grind [SubState.Agree]
        case users_some => grind [SubState.Agree]
        case users_node =>
          intro d' hd' i hin j hjn u u' hu hu' hn
          by_cases h : d' = d
          · subst h
            have hinj := hag.users_node d' hd'
            simp only [↓reduceIte, Function.update_apply] at hin hjn hu hu'
            grind
          · simp only [h, ↓reduceIte] at hin hjn hu hu'
            exact hag.users_node d' hd' i hin j hjn u u' hu hu' hn
        case version =>
          intro d' hd' i hin u hu
          by_cases h : d' = d
          · subst h
            simp only [↓reduceIte, Function.update_apply] at hin hu
            split at hu
            · cases hu
              exact ⟨rfl, hval⟩
            · exact hag.version d' hd' i (by omega) u hu
          · simp only [h, ↓reduceIte] at hin hu
            exact hag.version d' hd' i hin u hu
      case users_none =>
        intro d' hd' i hin
        have hold := hi.users_none d' hd' i
        simp only [Function.update_apply] at hin ⊢
        grind
      case frame_free =>
        intro t' ht' f hf hof hc
        have hold := hi.frame_free t' ht' f hf hof hc
        by_cases h : f.d = d
        · -- the frame belongs to the same thread, so the entry is for another node
          have ht : t' = t := by rw [← hof, h, ho]
          subst ht
          have hnode : node ≠ e.nodeOf t' := fun hn => hframe ho ht' hn f hf h
          rw [h] at hold ⊢
          rw [Bool.eq_false_iff, ne_eq, SubState.hasUser_iff]
          rintro ⟨i, hin, u, hu, hun⟩
          simp only [Function.update_self, Function.update_apply] at hin hu
          split at hu
          · cases hu
            exact hnode hun
          · rw [SubState.hasUser_iff.mpr ⟨i, by omega, u, hu, hun⟩] at hold
            cases hold
        · simpa only [SubState.hasUser, Function.update_of_ne h] using hold
      · exact hi.areas_none
      · exact hi.toOwner_valid
      · exact hi.frame_node
      · exact hi.frame_valid
      · exact hi.frame_once

/-- A thread begins to wait: an owning application thread only once for each area. -/
theorem SubInv.push (hi : SubInv e s) (t : ℕ) (f : AddUserFrame) (hnode : f.node = e.nodeOf t)
    (hidx : f.idx = -1 ∨ s.Valid f.node f.d f.idx)
    (hfree : e.isDaemon t = false → e.owner f.d = t → s.created f.d = true →
      s.hasUser f.d (e.nodeOf t) = false)
    (honce : e.isDaemon t = false → e.owner f.d = t → ∀ g ∈ s.stack t, g.d ≠ f.d) :
    SubInv e (s.push t f) := by
  constructor
  case frame_node =>
    simp only [SubState.push, Function.update_apply]
    grind [SubInv]
  case frame_valid =>
    have hold := hi.frame_valid
    simp only [SubState.push, Function.update_apply, SubState.Valid] at hold hidx ⊢
    grind
  case frame_free =>
    have hold := hi.frame_free
    intro t' ht' g hg hog hc
    change s.hasUser g.d (e.nodeOf t') = false
    simp only [SubState.push, Function.update_apply] at hg hc
    grind
  case frame_once =>
    intro t' ht'
    simp only [SubState.push, Function.update_apply]
    split
    case isTrue h =>
      subst h
      rw [List.pairwise_cons]
      exact ⟨fun g hg ho hd => honce ht' ho g hg hd.symm, hi.frame_once t' ht'⟩
    case isFalse => exact hi.frame_once t' ht'
  · exact ⟨hi.agree.users_some, hi.agree.users_node, hi.agree.users_max, hi.agree.version,
      hi.agree.areas_some, hi.agree.areas_inj⟩
  · exact hi.users_none
  · exact hi.areas_none
  · exact hi.toOwner_valid

theorem SubInv.send (hi : SubInv e s) (f : AddUserFrame) (hf : s.Valid f.node f.d f.idx)
    (r : List (ℕ × ℕ)) : SubInv e { s with toOwner := f :: s.toOwner, toDaemon := r } := by
  constructor
  case toOwner_valid =>
    intro g hg
    rcases List.mem_cons.mp hg with rfl | hg
    · exact hf
    · exact hi.toOwner_valid g hg
  · exact ⟨hi.agree.users_some, hi.agree.users_node, hi.agree.users_max, hi.agree.version,
      hi.agree.areas_some, hi.agree.areas_inj⟩
  · exact hi.users_none
  · exact hi.areas_none
  · exact hi.frame_node
  · exact hi.frame_valid
  · exact hi.frame_free
  · exact hi.frame_once

/-- A call of `tasvir_area_add_user`, in any of its builds. -/
theorem SubInv.tasvirAreaAddUser (hi : SubInv e s) (t d node : ℕ) (idx : ℤ) (v : SubView)
    (hsees : s.Sees e t d node v)
    (hidx : s.Valid node d idx ∨ idx = -1 ∧ node = e.nodeOf t)
    (hnest : e.owner d = t → e.isDaemon t = false → node = e.nodeOf t → ∀ f ∈ s.stack t, f.d ≠ d) :
    SubInv e (s.tasvirAreaAddUser e t d node idx v) := by
  obtain ⟨hown, -, hv⟩ := hsees
  unfold SubState.tasvirAreaAddUser
  split
  · exact hi
  split
  · exact hi
  case isFalse hatt =>
    -- the owner has looked the node up in its own table
    have hnew : e.owner d = t → s.created d = true → s.hasUser d node = false := by
      intro ho hc
      have h := (hown ho).2
      simp only [hc, Bool.true_and] at h
      rw [← h]
      simpa using hatt
    split
    case isTrue hnode =>
      split
      case isTrue hdm =>
        split
        · exact hi
        · obtain ⟨hs, hval, hc, hn, hu, hst, hle⟩ := hi.subscribe node d
          have huser : (s.subscribe node d).1.hasUser d node = s.hasUser d node := by
            simp only [SubState.hasUser, hn, hu]
          simp only
          split
          · apply SubInv.push (hs.send ⟨d, node, (s.subscribe node d).2⟩ hval _) t
              ⟨d, node, (s.subscribe node d).2⟩ hnode (Or.inr hval)
            · intro h
              rw [hdm] at h
              cases h
            · intro h
              rw [hdm] at h
              cases h
          · apply hs.addEntry t d node _ v _ (Or.inl hval)
            · intro ho hcr
              rw [huser]
              exact hnew ho (by rw [← hc]; exact hcr)
            · intro _ h
              rw [hdm] at h
              cases h
            · rw [← hnode] at hv ⊢
              exact hv.trans hle
      case isFalse hdm =>
        have happ : e.isDaemon t = false := by simpa using hdm
        have hreq : SubInv e { s with toDaemon := (d, node) :: s.toDaemon } :=
          ⟨⟨hi.agree.users_some, hi.agree.users_node, hi.agree.users_max, hi.agree.version,
            hi.agree.areas_some, hi.agree.areas_inj⟩, hi.users_none, hi.areas_none,
            hi.toOwner_valid, hi.frame_node, hi.frame_valid, hi.frame_free, hi.frame_once⟩
        apply hreq.push t ⟨d, node, idx⟩ hnode
        · rcases hidx with h | h
          · exact Or.inr h
          · exact Or.inl h.1
        · intro _ ho hc
          rw [← hnode]
          exact hnew ho hc
        · intro _ ho g hg
          exact hnest ho happ hnode g hg
    case isFalse hnode =>
      apply hi.addEntry t d node idx v hv _ hnew
      · intro _ _ h
        exact absurd h hnode
      · rcases hidx with h | h
        · exact Or.inl h
        · exact absurd h.2 hnode

/-- The innermost waiting call goes on; the others wait for other areas. -/
theorem SubInv.resume (hi : SubInv e s) (t : ℕ) (f : AddUserFrame) (ok : Bool) (v : SubView)
    (hp : s.pre e (.resume t f ok v)) : SubInv e (s.resume e t f ok v) := by
  obtain ⟨hhead, hv⟩ := hp
  have hstack : s.stack t = f :: (s.stack t).tail := (List.cons_head?_tail hhead).symm
  have hmem : f ∈ s.stack t := List.mem_of_mem_head? hhead
  have hsub : ∀ t', ∀ g ∈ Function.update s.stack t (s.stack t).tail t', g ∈ s.stack t' := by
    intro t' g hg
    simp only [Function.update_apply] at hg
    split at hg
    case isTrue h => rw [h]; exact List.mem_of_mem_tail hg
    case isFalse => exact hg
  -- the frame leaves the stack before the entry is made
  have hpop : SubInv e { s with stack := Function.update s.stack t (s.stack t).tail } := by
    constructor
    case frame_node => exact fun t' g hg => hi.frame_node t' g (hsub t' g hg)
    case frame_valid => exact fun t' g hg => hi.frame_valid t' g (hsub t' g hg)
    case frame_free => exact fun t' ht' g hg => hi.frame_free t' ht' g (hsub t' g hg)
    case frame_once =>
      intro t' ht'
      simp only [Function.update_apply]
      split
      case isTrue h => rw [← h]; exact (hi.frame_once t' ht').tail
      case isFalse => exact hi.frame_once t' ht'
    · exact ⟨hi.agree.users_some, hi.agree.users_node, hi.agree.users_max, hi.agree.version,
        hi.agree.areas_some, hi.agree.areas_inj⟩
    · exact hi.users_none
    · exact hi.areas_none
    · exact hi.toOwner_valid
  unfold SubState.resume
  simp only
  split
  · exact hpop
  case isFalse hgo =>
    have happ : e.isDaemon t = false := by
      cases h : e.isDaemon t with
      | false => rfl
      | true => simp [h] at hgo
    have hnode := hi.frame_node t f hmem
    apply hpop.addEntry t f.d f.node f.idx v hv
    · rcases hi.frame_valid t f hmem with h | h
      · exact Or.inr ⟨h, happ, hnode⟩
      · exact Or.inl h
    · intro ho hc
      rw [hnode]
      exact hi.frame_free t happ f hmem ho hc
    · -- a thread has at most one frame for an area of its own
      intro ho _ _ g hg hd
      simp only [Function.update_self] at hg
      have honce := hi.frame_once t happ
      rw [hstack, List.pairwise_cons] at honce
      exact honce.1 g hg ho hd.symm

theorem SubInv.create (hi : SubInv e s) (d : ℕ) (hp : s.pre e (.create d)) :
    SubInv e (s.next e (.create d)) := by
  obtain ⟨hc, hfree⟩ := hp
  have hag := hi.agree
  constructor
  case agree =>
    constructor <;> simp only [SubState.next, Function.update_apply]
    case areas_some => exact hag.areas_some
    case areas_inj => exact hag.areas_inj
    all_goals grind [SubState.Agree]
  case users_none =>
    intro d' hd' i hin
    by_cases h : d' = d
    · simp only [SubState.next, h, Function.update_self]
    · simp only [SubState.next, Function.update_of_ne h] at hd' hin ⊢
      exact hi.users_none d' hd' i hin
  case frame_free =>
    intro t ht f hf ho hcf
    have hne : f.d ≠ d := by
      intro h
      exact hfree f (by rw [← h, ho]; exact hf) h
    simp only [SubState.next, Function.update_of_ne hne] at hcf
    have hold := hi.frame_free t ht f hf ho hcf
    simpa only [SubState.next, SubState.hasUser, Function.update_of_ne hne] using hold
  · exact hi.areas_none
  · exact hi.toOwner_valid
  · exact hi.frame_node
  · exact hi.frame_valid
  · exact hi.frame_once

theorem SubInv.step (hi : SubInv e s) (a : SubAct) (hp : s.pre e a) (hn : s.notNested e a) :
    SubInv e (s.next e a) := by
  cases a with
  | create d => exact hi.create d hp
  | call t d v =>
    exact hi.tasvirAreaAddUser t d _ _ v hp (Or.inr ⟨rfl, rfl⟩) hn
  | atOwner f v =>
    exact hi.tasvirAreaAddUser _ _ _ _ v hp.2.2 (Or.inl (hi.toOwner_valid f hp.1)) hn
  | atDaemon d node v =>
    have hnode := e.nodeOf_daemonOf node
    apply hi.tasvirAreaAddUser _ _ _ _ v hp.2 (Or.inr ⟨rfl, hnode.symm⟩)
    intro _ h
    simp [SubEnv.isDaemon, hnode] at h
  | resume t f ok v => exact hi.resume t f ok v hp

theorem subInv_reachable
    (h : ((subscriptionSystem e).restrict (SubState.notNested e)).Reachable s) : SubInv e s := by
  apply h.invariant
  · rintro s rfl
    constructor
    case agree => constructor <;> simp
    all_goals simp
  · intro s a hi hp
    exact hi.step a hp.1 hp.2

end

/-- The subscription tables agree in every run in which no owning application
thread begins to add its own node while it is already waiting to do so. -/
theorem subscription_tables_agree (e : SubEnv) (s : SubState)
    (h : ((subscriptionSystem e).restrict (SubState.notNested e)).Reachable s) : s.Agree :=
  (subInv_reachable h).agree

/-- Node 0 has its daemon, thread 0, and the application threads 1 and 2; thread 1
owns every area. -/
def threeThreads : SubEnv where
  nodeOf := fun t => t-2
  daemonOf := fun n => if n = 0 then 0 else n+2
  owner := fun _ => 1
  nodeOf_daemonOf := fun n => by split <;> omega

instance (e : SubEnv) (s : SubState) (t d node : ℕ) (v : SubView) :
    Decidable (s.Sees e t d node v) := by
  unfold SubState.Sees
  infer_instance

instance (e : SubEnv) (s : SubState) (a : SubAct) : Decidable ((subscriptionSystem e).pre s a) := by
  change Decidable (s.pre e a)
  cases a <;> (unfold SubState.pre; infer_instance)

instance (e : SubEnv) (s : SubState) (a : SubAct) :
    Decidable (((subscriptionSystem e).restrict (SubState.notNested e)).pre s a) := by
  change Decidable ((subscriptionSystem e).pre s a ∧ s.notNested e a)
  cases a <;> (unfold SubState.notNested SubState.begins; infer_instance)

/-- Thread 2 attaches to area 5 before thread 1 has set LOCAL on it, so the daemon
asks the owner; thread 1 handles that request while its own call waits. -/
def nestedActs : List SubAct :=
  [.call 2 5 ⟨false, false, 0⟩, .atDaemon 5 0 ⟨false, false, 0⟩, .create 5,
    .call 1 5 ⟨true, false, 0⟩, .atOwner ⟨5, 0, 0⟩ ⟨true, false, 0⟩, .atDaemon 5 0 ⟨true, false, 0⟩,
    .resume 1 ⟨5, 0, 0⟩ true ⟨true, false, 1⟩, .resume 1 ⟨5, 0, -1⟩ true ⟨true, false, 1⟩]

/-- Node 0 is then twice among the users of area 5. -/
theorem nested_add_user_duplicates :
    ∃ s, (subscriptionSystem threeThreads).Reachable s ∧ s.created 5 = true ∧ s.nrUsers 5 = 2 ∧
      s.users 5 0 = some ⟨0, 0, 0⟩ ∧ s.users 5 1 = some ⟨0, 0, 0⟩ ∧ ¬s.Agree := by
  have h0 : (subscriptionSystem threeThreads).Reachable {} := .init rfl
  have hrun := h0.run nestedActs (by decide)
  refine ⟨_, hrun, by decide, by decide, by decide, by decide, ?_⟩
  intro h
  exact absurd (h.users_node 5 (by decide) 0 (by decide) 1 (by decide) ⟨0, 0, 0⟩ ⟨0, 0, 0⟩
    (by decide) (by decide) rfl) (by decide)

/-- The owner creates areas 5 and 6 and adds its node to each; the daemon of node 1 attaches
to area 5, and its request reaches the owner twice. -/
def attachActs : List SubAct :=
  [.create 5, .call 1 5 ⟨true, false, 0⟩, .atDaemon 5 0 ⟨true, false, 0⟩,
    .resume 1 ⟨5, 0, -1⟩ true ⟨true, false, 1⟩,
    .create 6, .call 1 6 ⟨true, false, 1⟩, .atDaemon 6 0 ⟨true, false, 1⟩,
    .resume 1 ⟨6, 0, -1⟩ true ⟨true, false, 2⟩,
    .call 3 5 ⟨true, false, 0⟩, .atOwner ⟨5, 1, 0⟩ ⟨true, false, 2⟩,
    .atOwner ⟨5, 1, 0⟩ ⟨true, true, 2⟩, .resume 3 ⟨5, 1, 0⟩ true ⟨true, true, 1⟩]

theorem subscription_tables_agree_attach :
    ∃ s, ((subscriptionSystem threeThreads).restrict (SubState.notNested threeThreads)).Reachable s ∧
      s.nrUsers 5 = 2 ∧ s.users 5 0 = some ⟨0, 0, 0⟩ ∧ s.users 5 1 = some ⟨1, 1, 0⟩ ∧
      s.nrUsers 6 = 1 ∧ s.users 6 0 = some ⟨0, 0, 1⟩ ∧ s.areasD 0 1 = some 6 ∧
      s.areasD 1 0 = some 5 ∧ s.Agree := by
  have h0 : ((subscriptionSystem threeThreads).restrict
      (SubState.notNested threeThreads)).Reachable {} := .init rfl
  have hrun := h0.run attachActs (by decide)
  exact ⟨_, hrun, by decide, by decide, by decide, by decide, by decide, by decide, by decide,
    subscription_tables_agree threeThreads _ hrun⟩

end Tasvir
