import Mathlib.Tactic
import Tasvir.Coverage
import Tasvir.GuardedWalk

/-! `tasvir_sync_external` and the request of a joining node: the root daemon has
to send it the root area and its own node area in full, since it has nothing. -/
namespace Tasvir
open RunLength GuardedWalk

/-- What the daemon reads of an area besides its logs. -/
structure Area where
  d : AreaDesc
  hasOwner : Bool
  hasHeader : Bool
  /-- TASVIR_AREA_FLAG_ACTIVE of the RW copy -/
  active : Bool
  /-- TASVIR_AREA_FLAG_LOCAL -/
  isLocal : Bool
  syncExtUs : ℕ
  /-- the type is TASVIR_AREA_TYPE_NODE -/
  isNode : Bool
  users : List (Option ℕ)

/-- `tasvir_area_is_active_local`. -/
def Area.isActiveLocal (a : Area) : Bool := a.hasOwner && a.hasHeader && a.active

/-- The daemon: its view of the area tree and the fields of `ndata` it uses here. -/
structure Daemon where
  isRoot : Bool
  rootDesc : ℕ
  nodeDesc : ℕ
  /-- children are listed for containers only -/
  tree : Rose ℕ
  area : ℕ → Area
  /-- `node->areas_d` -/
  areasD : List ℕ
  nodeInitReq : Bool
  syncExtUs : ℕ
  tdataTimeUs : ℕ
  ndataTimeUs : ℕ
  lastSyncExtEnd : ℕ

/-- One pass of the loop that shortens the external sync interval; the root
daemon passes it on to the root area and all node areas it has. -/
def Daemon.updateInterval (D : Daemon) (i : ℕ) : Daemon :=
  let d := D.area i
  if d.syncExtUs ≥ D.syncExtUs then D
  else
    let us := if d.isLocal then d.syncExtUs/2 else d.syncExtUs
    let D' := { D with syncExtUs := us }
    if !D.isRoot then D'
    else { D' with area := fun j =>
      if j = D.rootDesc ∨ (j ∈ D.areasD ∧ (D.area j).isNode = true) then
        { D.area j with syncExtUs := us } else D.area j }

def Daemon.updateIntervals (D : Daemon) : Daemon := D.areasD.foldl Daemon.updateInterval D

/-- The call of `tasvir_sync_external_area` for area `i`. -/
def Daemon.call (D : Daemon) (i : ℕ) : ExtCall :=
  { d := (D.area i).d, hasOwner := (D.area i).hasOwner, isLocal := (D.area i).isLocal
    syncExtUs := (D.area i).syncExtUs, tdataTimeUs := D.tdataTimeUs
    ndataTimeUs := D.ndataTimeUs, lastSyncExtEnd := D.lastSyncExtEnd
    init := D.isRoot && (i == D.rootDesc || i == D.nodeDesc) && D.nodeInitReq
    users := (D.area i).users }

/-- The daemon's copies, list and ring, and the logs of every area. -/
structure DaemonMem where
  ctx : SyncCtx
  logs : ℕ → AreaLogs

def Daemon.syncArea (D : Daemon) (s : DaemonMem) (i : ℕ) : DaemonMem × ℕ :=
  let r := syncExternalArea (D.call i) s.ctx (s.logs i)
  (⟨r.1, Function.update s.logs i r.2.1⟩, r.2.2)

/-- `tasvir_sync_external`; `now` is the time read at its end. -/
def Daemon.syncExternal (D : Daemon) (now : ℕ) (s : DaemonMem) : Daemon × DaemonMem × ℤ :=
  let D := D.updateIntervals
  let r := D.tree.walk (fun i => (D.area i).isActiveLocal) D.syncArea s
  ({ D with nodeInitReq := false, ndataTimeUs := now, lastSyncExtEnd := now }, r.1,
    if r.2 > 0 then 0 else -1)

/-- The areas the walk reaches. -/
def Daemon.reached (D : Daemon) : List ℕ := D.tree.visited fun i => (D.area i).isActiveLocal

/-- The call has sent every line that is set in a diff log of area `i`, in
messages of that area. -/
def SentInFull (d : AreaDesc) (a : AreaLogs) (ms : List MemMsg) : Prop :=
  ∀ l < d.offsetLogEnd/64, (∃ p < 4, lineBit (a.diff p) l = true) →
    Covers ((ms.filter fun m => decide (m.d = d)).map MemMsg.run) (d.h/64+l)

/-- When an area with `node_init_req` is sent in full: nothing is logged, or the
walk reaches it, its gate is open, and the pivot loop does not stop at log 3 or
has nothing to lose there. -/
def Daemon.Serves (D : Daemon) (i : ℕ) (a : AreaLogs) : Prop :=
  (∀ l < (D.area i).d.offsetLogEnd/64, ∀ p < 4, lineBit (a.diff p) l = false) ∨
  (i ∈ D.reached ∧ (D.call i).passes a = true ∧
    ((D.call i).stopsAt a.info 3 = false ∨
      ∀ l < (D.area i).d.offsetLogEnd/64, lineBit (a.diff 3) l = true →
        ∃ p < 3, lineBit (a.diff p) l = true))

/-- The daemon's areas as `tasvir_new` makes them. -/
structure Daemon.Wf (D : Daemon) : Prop where
  distinct : ∀ i j, (D.area i).d = (D.area j).d → i = j
  aligned : ∀ i, 32768 ∣ (D.area i).d.offsetLogEnd
  nodup : D.reached.Nodup

/-- An area whose messages are counted: laid out well and below 4 GiB. -/
structure Daemon.Small (D : Daemon) (i : ℕ) : Prop where
  wf : (D.area i).d.Wf
  small : (D.area i).d.offsetLogEnd < 2^32

section
variable {D : Daemon} (hD : D.Wf)
include hD

theorem foreign_after (s : DaemonMem) (i j : ℕ) (hj : (D.area j).d.Wf)
    (hl : Foreign (D.area j).d s.ctx.sl.l) :
    Foreign (D.area j).d (D.syncArea s i).1.ctx.sl.l := by
  obtain ⟨-, h⟩ := external_frame (D.call i) (hD.aligned i) s.ctx (s.logs i)
  simp only [Daemon.syncArea]
  rcases h with h | h | h
  · rw [h]
    exact hl
  · rw [h]
    exact hl.append (rootItems_foreign _ hj)
  · rw [h]
    exact fun it hit => absurd hit List.not_mem_nil

/-- The calls for other areas send nothing of area `j` and leave its logs alone. -/
theorem others_frame (is : List ℕ) (j : ℕ) (hj : (D.area j).d.Wf) (hji : j ∉ is) (s : DaemonMem)
    (hl : Foreign (D.area j).d s.ctx.sl.l) :
    (is.foldl (fun s i => (D.syncArea s i).1) s).logs j = s.logs j ∧
    Foreign (D.area j).d (is.foldl (fun s i => (D.syncArea s i).1) s).ctx.sl.l ∧
    ∃ ms, (is.foldl (fun s i => (D.syncArea s i).1) s).ctx.tx.ring = s.ctx.tx.ring ++ ms ∧
      ∀ m ∈ ms, m.d ≠ (D.area j).d := by
  induction is generalizing s with
  | nil => exact ⟨rfl, hl, [], (List.append_nil _).symm, fun _ h => absurd h List.not_mem_nil⟩
  | cons i is ih =>
    have hij : j ≠ i := fun h => hji (h ▸ List.mem_cons_self)
    obtain ⟨h1, h2, ms, h3, h4⟩ := ih (fun h => hji (List.mem_cons_of_mem _ h))
      (D.syncArea s i).1 (foreign_after hD s i j hj hl)
    obtain ⟨⟨-, -, ns, h5, h6⟩, -⟩ :=
      external_frame (D.call i) (hD.aligned i) s.ctx (s.logs i)
    refine ⟨?_, h2, ns ++ ms, ?_, ?_⟩
    · rw [List.foldl_cons, h1]
      exact Function.update_of_ne hij _ _
    · rw [List.foldl_cons, h3]
      change (syncExternalArea (D.call i) s.ctx (s.logs i)).1.tx.ring ++ ms = _
      rw [h5, List.append_assoc]
    · intro m hm
      rcases List.mem_append.mp hm with hm | hm
      · intro heq
        exact hij (hD.distinct j i (heq.symm.trans (h6 m hm)))
      · exact h4 m hm

end

theorem filter_others (ms : List MemMsg) (d : AreaDesc) (h : ∀ m ∈ ms, m.d ≠ d) :
    (ms.filter fun m => decide (m.d = d)) = [] := by
  apply List.filter_eq_nil_iff.mpr
  intro m hm
  simpa using h m hm

theorem filter_own (ms : List MemMsg) (d : AreaDesc) (h : ∀ m ∈ ms, m.d = d) :
    (ms.filter fun m => decide (m.d = d)) = ms := by
  apply List.filter_eq_self.mpr
  intro m hm
  simpa using h m hm

/-- With no message of its own an area is sent in full only if nothing is set. -/
theorem sentInFull_nil (d : AreaDesc) (a : AreaLogs) (ms : List MemMsg)
    (h : ∀ m ∈ ms, m.d ≠ d) :
    SentInFull d a ms ↔ ∀ l < d.offsetLogEnd/64, ∀ p < 4, lineBit (a.diff p) l = false := by
  rw [SentInFull, filter_others ms d h]
  simp only [List.map_nil, covers_nil, imp_false, not_exists, not_and, Bool.not_eq_true]

/-- The messages of one walk: area `j` is sent in full exactly when it is served. -/
theorem sentInFull_iff {D : Daemon} (hD : D.Wf) (j : ℕ) (hj : D.Small j)
    (hinit : (D.call j).init = true) (s : DaemonMem) (hl : Foreign (D.area j).d s.ctx.sl.l)
    (ms : List MemMsg)
    (hms : (D.reached.foldl (fun s i => (D.syncArea s i).1) s).ctx.tx.ring = s.ctx.tx.ring ++ ms) :
    SentInFull (D.area j).d (s.logs j) ms ↔ D.Serves j (s.logs j) := by
  by_cases hmem : j ∈ D.reached
  · -- split the walk at area j
    obtain ⟨is, ks, hsplit⟩ := List.append_of_mem hmem
    have hnd := hD.nodup
    rw [hsplit, List.nodup_append] at hnd
    have hjis : j ∉ is := fun h => hnd.2.2 j h j List.mem_cons_self rfl
    have hjks : j ∉ ks := (List.nodup_cons.mp hnd.2.1).1
    rw [hsplit, List.foldl_append, List.foldl_cons] at hms
    obtain ⟨hlogs, hlist, ms₁, hring₁, hne₁⟩ := others_frame hD is j hj.wf hjis s hl
    generalize is.foldl (fun s i => (D.syncArea s i).1) s = s₁ at hms hlogs hlist hring₁
    obtain ⟨-, -, ms₃, hring₃, hne₃⟩ := others_frame hD ks j hj.wf hjks (D.syncArea s₁ j).1
      (foreign_after hD s₁ j j hj.wf hlist)
    obtain ⟨⟨-, -, ms₂, hring₂, hown⟩, -⟩ :=
      external_frame (D.call j) (hD.aligned j) s₁.ctx (s₁.logs j)
    have hall : ms = ms₁ ++ ms₂ ++ ms₃ := by
      rw [hring₃] at hms
      change (syncExternalArea (D.call j) s₁.ctx (s₁.logs j)).1.tx.ring ++ ms₃ = _ at hms
      rw [hring₂, hring₁, List.append_assoc, List.append_assoc] at hms
      rw [List.append_assoc]
      exact (List.append_cancel_left hms).symm
    have hfilter : (ms.filter fun m => decide (m.d = (D.area j).d)) = ms₂ := by
      rw [hall, List.filter_append, List.filter_append, filter_others ms₁ _ hne₁,
        filter_others ms₃ _ hne₃, filter_own ms₂ (D.area j).d hown, List.nil_append,
        List.append_nil]
    rw [SentInFull, hfilter]
    rw [hlogs] at hring₂
    by_cases hpass : (D.call j).passes (s.logs j) = true
    · have hshort : (D.call j).Short (s.logs j) := by
        intro a ha
        have hsmall := hj.small
        change a+2^26 ≤ (D.area j).d.offsetLogEnd/64 at ha
        omega
      obtain ⟨ns, hns, hcov⟩ := external_sends (D.call j) hj.wf s₁.ctx (s.logs j) hlist hpass hshort
      have heq : ms₂ = ns := List.append_cancel_left (hring₂.symm.trans hns)
      subst heq
      have hcov' : ∀ l < (D.area j).d.offsetLogEnd/64,
          (Covers (ms₂.map MemMsg.run) ((D.area j).d.h/64+l) ↔
            ∃ p < (D.call j).pivot (s.logs j).info, lineBit ((s.logs j).diff p) l = true) := hcov
      obtain ⟨hle, hstop, hboot⟩ := pivot_spec (D.call j) (s.logs j).info
      obtain ⟨hge, hfour⟩ := hboot hinit
      by_cases hp4 : (D.call j).pivot (s.logs j).info = 4
      · -- all four logs are selected
        rw [hp4] at hcov'
        constructor
        · intro _
          exact Or.inr ⟨hmem, hpass, Or.inl (hfour hp4)⟩
        · intro _ l hl hset
          exact (hcov' l hl).mpr hset
      · have hp3 : (D.call j).pivot (s.logs j).info = 3 := by omega
        have hstop3 := hstop (by omega)
        rw [hp3] at hcov' hstop3
        constructor
        · intro hfull
          refine Or.inr ⟨hmem, hpass, Or.inr ?_⟩
          intro l hl hset
          exact (hcov' l hl).mp (hfull l hl ⟨3, by norm_num, hset⟩)
        · intro hserve l hl hset
          rw [hcov' l hl]
          obtain ⟨p, hp, hbit⟩ := hset
          rcases hserve with hnone | ⟨-, -, hno | hsub⟩
          · rw [hnone l hl p hp] at hbit
            exact Bool.noConfusion hbit
          · rw [hstop3] at hno
            exact Bool.noConfusion hno
          · by_cases hp3' : p = 3
            · subst hp3'
              exact hsub l hl hbit
            · exact ⟨p, by omega, hbit⟩
    · -- a closed gate sends nothing
      have hnil : ms₂ = [] := by
        rcases syncExternalArea_cases (D.call j) s₁.ctx (s.logs j) with
          ⟨-, hr⟩ | ⟨hp, -⟩ | ⟨hp, -⟩
        · rw [hr] at hring₂
          exact List.append_cancel_left (hring₂.symm.trans (List.append_nil _).symm)
        · exact absurd hp hpass
        · exact absurd hp hpass
      subst hnil
      simp only [List.map_nil, covers_nil, imp_false, not_exists, not_and, Bool.not_eq_true]
      constructor
      · exact Or.inl
      · rintro (hnone | ⟨-, hp, -⟩)
        · exact hnone
        · exact absurd hp hpass
  · obtain ⟨-, -, ms', hring, hne⟩ := others_frame hD D.reached j hj.wf hmem s hl
    have heq : ms = ms' := List.append_cancel_left (hms.symm.trans hring)
    subst heq
    rw [sentInFull_nil _ _ _ hne]
    constructor
    · exact Or.inl
    · rintro (hnone | ⟨hr, -⟩)
      · exact hnone
      · exact absurd hr hmem

/-- The two daemons differ in intervals only. -/
structure Daemon.Similar (D E : Daemon) : Prop where
  isRoot : E.isRoot = D.isRoot
  rootDesc : E.rootDesc = D.rootDesc
  nodeDesc : E.nodeDesc = D.nodeDesc
  nodeInitReq : E.nodeInitReq = D.nodeInitReq
  tree : E.tree = D.tree
  area : ∀ i, ∃ us, E.area i = { D.area i with syncExtUs := us }

theorem similar_updateInterval (D : Daemon) (k : ℕ) : D.Similar (D.updateInterval k) := by
  have hsame (i : ℕ) : ∃ us, D.area i = { D.area i with syncExtUs := us } :=
    ⟨(D.area i).syncExtUs, rfl⟩
  unfold Daemon.updateInterval
  by_cases hge : (D.area k).syncExtUs ≥ D.syncExtUs
  · rw [if_pos hge]
    exact ⟨rfl, rfl, rfl, rfl, rfl, hsame⟩
  · rw [if_neg hge]
    cases hr : D.isRoot
    · exact ⟨hr.symm, rfl, rfl, rfl, rfl, hsame⟩
    · refine ⟨hr.symm, rfl, rfl, rfl, rfl, ?_⟩
      intro i
      by_cases hi : i = D.rootDesc ∨ (i ∈ D.areasD ∧ (D.area i).isNode = true)
      · refine ⟨if (D.area k).isLocal = true then (D.area k).syncExtUs/2
          else (D.area k).syncExtUs, ?_⟩
        exact if_pos hi
      · obtain ⟨us, hus⟩ := hsame i
        exact ⟨us, (if_neg hi).trans hus⟩

theorem similar_updateIntervals (D : Daemon) : D.Similar D.updateIntervals := by
  have hfold (is : List ℕ) (E : Daemon) (h : D.Similar E) :
      D.Similar (is.foldl Daemon.updateInterval E) := by
    induction is generalizing E with
    | nil => exact h
    | cons k is ih =>
      apply ih
      have hk := similar_updateInterval E k
      refine ⟨hk.isRoot.trans h.isRoot, hk.rootDesc.trans h.rootDesc, hk.nodeDesc.trans h.nodeDesc,
        hk.nodeInitReq.trans h.nodeInitReq, hk.tree.trans h.tree, ?_⟩
      intro i
      obtain ⟨us, hus⟩ := hk.area i
      obtain ⟨us', hus'⟩ := h.area i
      exact ⟨us, by rw [hus, hus']⟩
  exact hfold D.areasD D ⟨rfl, rfl, rfl, rfl, rfl, fun i => ⟨(D.area i).syncExtUs, rfl⟩⟩

theorem Daemon.Similar.reached {D E : Daemon} (h : D.Similar E) : E.reached = D.reached := by
  have hactive : (fun i => (E.area i).isActiveLocal) = fun i => (D.area i).isActiveLocal := by
    funext i
    obtain ⟨us, hus⟩ := h.area i
    rw [hus]
    rfl
  rw [Daemon.reached, Daemon.reached, hactive, h.tree]

theorem Daemon.Similar.d {D E : Daemon} (h : D.Similar E) (i : ℕ) :
    (E.area i).d = (D.area i).d := by
  obtain ⟨us, hus⟩ := h.area i
  rw [hus]

theorem Daemon.Wf.similar {D E : Daemon} (hD : D.Wf) (h : D.Similar E) : E.Wf := by
  refine ⟨?_, ?_, ?_⟩
  · intro i j hij
    rw [h.d, h.d] at hij
    exact hD.distinct i j hij
  · intro i
    rw [h.d]
    exact hD.aligned i
  · rw [h.reached]
    exact hD.nodup

theorem Daemon.Small.similar {D E : Daemon} {i : ℕ} (hi : D.Small i) (h : D.Similar E) :
    E.Small i := by
  refine ⟨?_, ?_⟩
  · rw [h.d]
    exact hi.wf
  · rw [h.d]
    exact hi.small

/-- A call of `tasvir_sync_external` by the root daemon with a pending request,
split by area. -/
theorem syncExternal_sent {D : Daemon} (hD : D.Wf) (hroot : D.isRoot = true)
    (hreq : D.nodeInitReq = true) (now : ℕ) (s : DaemonMem) (j : ℕ)
    (hj : j = D.rootDesc ∨ j = D.nodeDesc) (hsmall : D.Small j)
    (hl : Foreign (D.area j).d s.ctx.sl.l) (ms : List MemMsg)
    (hms : (D.syncExternal now s).2.1.ctx.tx.ring = s.ctx.tx.ring ++ ms) :
    SentInFull (D.area j).d (s.logs j) ms ↔ D.updateIntervals.Serves j (s.logs j) := by
  have hsim := similar_updateIntervals D
  have hinit : (D.updateIntervals.call j).init = true := by
    simp only [Daemon.call, hsim.isRoot, hroot, hsim.rootDesc, hsim.nodeDesc, hsim.nodeInitReq,
      hreq, Bool.true_and, Bool.and_true, Bool.or_eq_true, beq_iff_eq]
    exact hj
  have hwalk := Rose.walk_state (fun i => (D.updateIntervals.area i).isActiveLocal)
    D.updateIntervals.syncArea D.updateIntervals.tree s
  simp only [Daemon.syncExternal] at hms
  rw [hwalk] at hms
  have hiff := sentInFull_iff (hD.similar hsim) j (hsmall.similar hsim) hinit s
    (by rw [hsim.d]; exact hl) ms hms
  rwa [hsim.d] at hiff

theorem syncExternal_ring {D : Daemon} (hD : D.Wf) (now : ℕ) (s : DaemonMem) :
    ∃ ms, (D.syncExternal now s).2.1.ctx.tx.ring = s.ctx.tx.ring ++ ms := by
  have hfold (is : List ℕ) (E : Daemon) (hE : E.Wf) (s : DaemonMem) :
      ∃ ms, (is.foldl (fun s i => (E.syncArea s i).1) s).ctx.tx.ring = s.ctx.tx.ring ++ ms := by
    induction is generalizing s with
    | nil => exact ⟨[], (List.append_nil _).symm⟩
    | cons i is ih =>
      obtain ⟨ms, hms⟩ := ih (E.syncArea s i).1
      obtain ⟨⟨-, -, ns, hns, -⟩, -⟩ :=
        external_frame (E.call i) (hE.aligned i) s.ctx (s.logs i)
      refine ⟨ns ++ ms, ?_⟩
      rw [List.foldl_cons, hms]
      change (syncExternalArea (E.call i) s.ctx (s.logs i)).1.tx.ring ++ ms = _
      rw [hns, List.append_assoc]
  have hwalk := Rose.walk_state (fun i => (D.updateIntervals.area i).isActiveLocal)
    D.updateIntervals.syncArea D.updateIntervals.tree s
  simp only [Daemon.syncExternal]
  rw [hwalk]
  exact hfold _ _ (hD.similar (similar_updateIntervals D)) s

/-- A joining node's request. The flag is cleared in any case, so the request is
served or still set exactly when both areas are sent in full by this call, and
this is so exactly when `Serves` holds of both. -/
theorem init_request_served_iff (D : Daemon) (hD : D.Wf) (hroot : D.isRoot = true)
    (hreq : D.nodeInitReq = true) (hr : D.Small D.rootDesc) (hn : D.Small D.nodeDesc)
    (now : ℕ) (s : DaemonMem) (hlr : Foreign (D.area D.rootDesc).d s.ctx.sl.l)
    (hln : Foreign (D.area D.nodeDesc).d s.ctx.sl.l) :
    ∃ ms, (D.syncExternal now s).2.1.ctx.tx.ring = s.ctx.tx.ring ++ ms ∧
      ((SentInFull (D.area D.rootDesc).d (s.logs D.rootDesc) ms ∧
          SentInFull (D.area D.nodeDesc).d (s.logs D.nodeDesc) ms) ∨
        (D.syncExternal now s).1.nodeInitReq = true ↔
      D.updateIntervals.Serves D.rootDesc (s.logs D.rootDesc) ∧
        D.updateIntervals.Serves D.nodeDesc (s.logs D.nodeDesc)) := by
  obtain ⟨ms, hms⟩ := syncExternal_ring hD now s
  refine ⟨ms, hms, ?_⟩
  have hcleared : (D.syncExternal now s).1.nodeInitReq = false := rfl
  rw [hcleared, syncExternal_sent hD hroot hreq now s _ (Or.inl rfl) hr hlr ms hms,
    syncExternal_sent hD hroot hreq now s _ (Or.inr rfl) hn hln ms hms]
  simp only [Bool.false_eq_true, or_false]

/-- A root daemon long after boot: its own node has seen version 9 of both
areas, and a joining node has just asked for them. -/
def joinDaemon : Daemon :=
  { isRoot := true, rootDesc := 0, nodeDesc := 1, tree := .node 0 [.node 1 []]
    area := fun i => { d := ⟨32768*(8*i+1), 131072, i == 0⟩, hasOwner := true, hasHeader := true
                       active := true, isLocal := true, syncExtUs := 1000, isNode := i == 1
                       users := [some 9] }
    areasD := [0, 1], nodeInitReq := true, syncExtUs := 1000
    tdataTimeUs := 10000, ndataTimeUs := 10000, lastSyncExtEnd := 9000 }

/-- Line 100 was modified in version 7 and has been rotated to log 3 since;
version 9 modified the line of the version. -/
def agedLogs : AreaLogs :=
  { diff := fun p u => if p = 1 ∧ u = 0 then 1#64 <<< 62
      else if p = 3 ∧ u = 1 then 1#64 <<< 27 else 0#64
    info := fun p => if p = 3 then ⟨0, 7, 0, 50⟩ else if p = 2 then ⟨7, 7, 50, 50⟩
      else if p = 1 then ⟨7, 9, 50, 90⟩ else ⟨9, 9, 90, 90⟩
    lastSyncExtUs := 0, sleeping := false }

def joinMem : DaemonMem :=
  ⟨{ ro := fun _ => 0, rw := fun _ => 0 }, fun _ => agedLogs⟩

theorem joinDaemon_wf : joinDaemon.Wf := by
  refine ⟨?_, ?_, ?_⟩
  · intro i j h
    have hh := congrArg AreaDesc.h h
    simp only [joinDaemon] at hh
    omega
  · intro i
    exact ⟨4, rfl⟩
  · decide

theorem joinDaemon_small (i : ℕ) (hi : i ≤ 1) : joinDaemon.Small i := by
  refine ⟨⟨⟨8*i+1, rfl⟩, ?_, ⟨4, rfl⟩, ?_⟩, ?_⟩
  · simp only [joinDaemon]
    omega
  · simp only [joinDaemon]
    omega
  · norm_num [joinDaemon]

/-- The pivot loop starts at log 3 and stops there because the nodes it knows
have seen enough, so line 100 is not sent, and the request is dropped. -/
theorem init_request_dropped :
    joinDaemon.nodeInitReq = true ∧
    ∃ ms, (joinDaemon.syncExternal 11000 joinMem).2.1.ctx.tx.ring =
        joinMem.ctx.tx.ring ++ ms ∧
      ¬((SentInFull (joinDaemon.area 0).d (joinMem.logs 0) ms ∧
          SentInFull (joinDaemon.area 1).d (joinMem.logs 1) ms) ∨
        (joinDaemon.syncExternal 11000 joinMem).1.nodeInitReq = true) := by
  obtain ⟨ms, hms⟩ := syncExternal_ring joinDaemon_wf 11000 joinMem
  refine ⟨rfl, ms, hms, ?_⟩
  rintro (⟨hsent, -⟩ | hreq)
  · have hlist : Foreign (joinDaemon.area 0).d joinMem.ctx.sl.l :=
      fun it hit => absurd hit List.not_mem_nil
    rw [syncExternal_sent joinDaemon_wf rfl rfl 11000 joinMem 0 (Or.inl rfl)
      (joinDaemon_small 0 (by norm_num)) hlist ms hms] at hsent
    rcases hsent with hnone | ⟨-, -, hno | hsub⟩
    · exact absurd (hnone 100 (by decide) 3 (by norm_num)) (by decide)
    · exact absurd hno (by decide)
    · obtain ⟨p, hp, hbit⟩ := hsub 100 (by decide) (by decide)
      interval_cases p <;> exact absurd hbit (by decide)
  · exact Bool.noConfusion hreq

/-- The same request with an area whose log 3 is empty is served. -/
theorem init_request_served_fresh :
    let s : DaemonMem := ⟨joinMem.ctx, fun _ => { agedLogs with
      diff := fun p u => if p = 1 ∧ u = 0 then 1#64 <<< 62 else 0#64 }⟩
    ∃ ms, (joinDaemon.syncExternal 11000 s).2.1.ctx.tx.ring = s.ctx.tx.ring ++ ms ∧
      SentInFull (joinDaemon.area 0).d (s.logs 0) ms ∧
      SentInFull (joinDaemon.area 1).d (s.logs 1) ms := by
  intro s
  obtain ⟨ms, hms, hiff⟩ := init_request_served_iff joinDaemon joinDaemon_wf rfl rfl
    (joinDaemon_small 0 (by norm_num)) (joinDaemon_small 1 (by norm_num)) 11000 s
    (fun it hit => absurd hit List.not_mem_nil) (fun it hit => absurd hit List.not_mem_nil)
  have hempty (l : ℕ) : lineBit ((s.logs 0).diff 3) l = false := BitVec.getMsbD_zero
  have hserve (i : ℕ) (hi : i ∈ joinDaemon.updateIntervals.reached)
      (hp : (joinDaemon.updateIntervals.call i).passes (s.logs i) = true) :
      joinDaemon.updateIntervals.Serves i (s.logs i) := by
    refine Or.inr ⟨hi, hp, Or.inr ?_⟩
    intro l _ hset
    rw [hempty l] at hset
    exact Bool.noConfusion hset
  rcases hiff.mpr ⟨hserve 0 (by decide) (by decide), hserve 1 (by decide) (by decide)⟩ with
    ⟨hr, hn⟩ | hreq
  · exact ⟨ms, hms, hr, hn⟩
  · exact Bool.noConfusion hreq

end Tasvir
