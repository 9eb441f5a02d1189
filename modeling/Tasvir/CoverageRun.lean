import Mathlib.Tactic
import Tasvir.Coverage
import Tasvir.Machine

/-! Every run of the owner's node: whatever the order of internal syncs, external
syncs and rotations, the diff logs hold what any subscriber may miss. -/
namespace Tasvir
open RunLength AgedLogs Machine

/-- The owner's node with the history of its versions: `modified v` are the
lines that version `v` changed. -/
structure CovState where
  node : OwnerNode
  modified : ℕ → Set ℕ

inductive CovAct
  | update (ops : List OwnerOp)
  | internal (evs : List SyncEvent) (timeUs : ℕ)
  | external (e : ExtCall)
  | rotate (timeUs : ℕ)

/-- What a version changes: the logged lines and the line of the version itself. -/
def changedLines (d : AreaDesc) (m : NodeMem) : Set ℕ :=
  {l | l < d.offsetLogEnd/64 ∧ (lineBit m.log (d.h/64+l) = true ∨ l = 1)}

def OwnerNode.rotate (d : AreaDesc) (timeUs : ℕ) (s : OwnerNode) : OwnerNode :=
  let a := rotateLogs d timeUs s.logs
  { s with mem := { s.mem with diff := a.diff }, info := a.info }

def CovState.next (d : AreaDesc) (s : CovState) : CovAct → CovState
  | .update ops => { s with node := { s.node with mem := s.node.mem.ops d ops } }
  | .internal evs timeUs =>
    ⟨s.node.internal d evs timeUs, if hasChanges (syncUpdated d true s.node.mem evs) then
      Function.update s.modified (s.node.mem.rw (d.h+offVersion)) (changedLines d s.node.mem)
      else s.modified⟩
  | .external e => { s with node := s.node.external e }
  | .rotate timeUs => { s with node := s.node.rotate d timeUs }

/-- Runs of an area with one owner, from a node that has published nothing. -/
def coverageSystem (d : AreaDesc) : System CovState CovAct where
  init s := (∀ v, s.modified v = ∅) ∧ Foreign d (s.node.mem.lists 0).l
  pre _ a := match a with
    | .update ops => ∀ op ∈ ops, op.Valid d
    | .internal evs _ => Completes d evs
    | .external e => e.d = d
    | .rotate _ => True
  next := CovState.next d

structure CovInv (d : AreaDesc) (s : CovState) : Prop where
  covered : Covered 4 s.modified (s.node.logs.abs d)
  future : ∀ v, s.node.mem.rw (d.h+offVersion) ≤ v → s.modified v = ∅
  list : Foreign d (s.node.mem.lists 0).l

section
variable {d : AreaDesc} (hd : d.Wf)

/-- Payload writes do not reach the header. -/
theorem ops_header (ops : List OwnerOp) (hv : ∀ op ∈ ops, op.Valid d) (m : NodeMem) (o : ℕ)
    (ho : o < sizeofHeader) : (m.ops d ops).rw (d.h+o) = m.rw (d.h+o) := by
  obtain ⟨-, -, -, hrw⟩ := ops_frame (d := d) ops m
  apply hrw
  intro o' bytes hw hin
  obtain ⟨h1, -, -⟩ := hv _ hw
  omega

theorem CovInv.update {s : CovState} (h : CovInv d s) (ops : List OwnerOp)
    (hv : ∀ op ∈ ops, op.Valid d) :
    CovInv d { s with node := { s.node with mem := s.node.mem.ops d ops } } := by
  obtain ⟨-, hdiff, hlists, -⟩ := ops_frame (d := d) ops s.node.mem
  refine ⟨?_, ?_, ?_⟩
  · have hcov := h.covered
    simp only [OwnerNode.logs] at hcov ⊢
    rwa [hdiff]
  · intro v hle
    apply h.future v
    simp only at hle
    rwa [ops_header ops hv s.node.mem offVersion (by norm_num [offVersion, sizeofHeader])] at hle
  · simp only [hlists]
    exact h.list

include hd

theorem CovInv.internal {s : CovState} (h : CovInv d s) (evs : List SyncEvent) (timeUs : ℕ)
    (hev : Completes d evs) : CovInv d (s.next d (.internal evs timeUs)) := by
  have hdvd : ∀ t o n, .parse t o n ∈ evs → 32768 ∣ n := fun t o n hx => (hev.aligned t o n hx).2.1
  have hrw := rw_events d true evs s.node.mem
  have hdiff0 := hev.diff_zero hd s.node.mem
  have hdiffk := diff_events d true evs hdvd s.node.mem
  have hlist : Foreign d ((syncEvents d true s.node.mem evs).lists 0).l := by
    obtain ⟨h1, h2⟩ := lists_events d true 0 evs
      (fun p o n q hx => hev.flushed p 0 o n q hx) s.node.mem
    by_cases hp : .process 0 ∈ evs
    · rw [(h1 hp).1]
      exact fun it hit => absurd hit List.not_mem_nil
    · rw [h2 hp]
      exact h.list
  have hcov := h.covered
  simp only [CovState.next, OwnerNode.internal]
  by_cases hc : hasChanges (syncUpdated d true s.node.mem evs) = true
  · rw [if_pos hc, if_pos hc]
    refine ⟨?_, ?_, hlist⟩
    · -- the published version enters through log 0
      have hadd := hcov.add (s.node.mem.rw (d.h+offVersion)) (changedLines d s.node.mem)
        (by norm_num) h.future
      have habs : (OwnerNode.publish d timeUs
          { s.node with mem := syncEvents d true s.node.mem evs }).logs.abs d =
          (s.node.logs.abs d).add (s.node.mem.rw (d.h+offVersion)) (changedLines d s.node.mem) := by
        apply logs_ext
        · intro k l
          simp only [AreaLogs.abs, OwnerNode.logs, OwnerNode.publish, Logs.add, changedLines]
          by_cases h0 : k = 0
          · subst h0
            simp only [Function.update_self, Set.mem_ofPred_eq, Set.mem_union]
            rw [lineBit_markVersion]
            constructor
            · rintro ⟨hl, hbit⟩
              rw [hdiff0 l hl, Bool.or_eq_true, Bool.or_eq_true, decide_eq_true_iff, or_assoc] at hbit
              exact hbit.imp (fun hx => ⟨hl, hx⟩) (fun hx => ⟨hl, hx⟩)
            · rintro (⟨hl, hbit⟩ | ⟨hl, hbit⟩)
              · exact ⟨hl, by rw [hdiff0 l hl, hbit]; simp⟩
              · refine ⟨hl, ?_⟩
                rw [hdiff0 l hl, Bool.or_eq_true, Bool.or_eq_true, decide_eq_true_iff, or_assoc]
                exact Or.inr hbit
          · simp only [Function.update_of_ne h0, hdiffk k h0]
        · intro k
          simp only [AreaLogs.abs, OwnerNode.logs, OwnerNode.publish, Logs.add, hrw]
          by_cases h0 : k = 0
          · subst h0
            simp only [Function.update_self]
          · simp only [Function.update_of_ne h0]
      rw [habs]
      exact hadd
    · intro v hle
      simp only [OwnerNode.publish, Function.update_self, hrw] at hle
      simp only
      rw [Function.update_of_ne (by omega)]
      exact h.future v (by omega)
  · rw [if_neg hc, if_neg hc]
    refine ⟨?_, ?_, hlist⟩
    · have hgrow := hcov.grow
        {l | l < d.offsetLogEnd/64 ∧ lineBit ((syncEvents d true s.node.mem evs).diff 0) l = true}
        (fun l hl => ⟨hl.1, by rw [hdiff0 l hl.1]; simp only [OwnerNode.logs] at hl; rw [hl.2]; rfl⟩)
      have habs : AreaLogs.abs d
          (OwnerNode.logs { s.node with mem := syncEvents d true s.node.mem evs }) =
          ⟨Function.update (s.node.logs.abs d).bits 0 {l | l < d.offsetLogEnd/64 ∧
            lineBit ((syncEvents d true s.node.mem evs).diff 0) l = true},
            (s.node.logs.abs d).upTo⟩ := by
        apply logs_ext
        · intro k l
          simp only [AreaLogs.abs, OwnerNode.logs]
          by_cases h0 : k = 0
          · subst h0
            simp only [Function.update_self]
          · simp only [Function.update_of_ne h0, hdiffk k h0]
        · intro k
          rfl
      rw [habs]
      exact hgrow
    · intro v hle
      apply h.future v
      simp only [hrw] at hle
      exact hle

theorem CovInv.external {s : CovState} (h : CovInv d s) (e : ExtCall) (he : e.d = d) :
    CovInv d { s with node := s.node.external e } := by
  obtain ⟨⟨-, hrw, -⟩, hl⟩ := external_frame e (he ▸ hd.end_aligned) s.node.ctx s.node.logs
  refine ⟨covered_external hd e he s.node.ctx s.node.logs h.covered, ?_, ?_⟩
  · intro v hle
    apply h.future v
    simp only [OwnerNode.external, hrw] at hle
    exact hle
  · simp only [OwnerNode.external, Function.update_self]
    rcases hl with hl | hl | hl
    · rw [hl]
      exact h.list
    · rw [hl, he]
      exact h.list.append (rootItems_foreign d hd)
    · rw [hl]
      exact fun it hit => absurd hit List.not_mem_nil

theorem covInv_reachable {s : CovState} (h : (coverageSystem d).Reachable s) : CovInv d s := by
  apply h.invariant
  · rintro s ⟨hm, hl⟩
    refine ⟨⟨?_, ?_⟩, fun v _ => hm v, hl⟩
    · intro k _ v _
      rw [hm v]
      exact Set.empty_subset _
    · intro v
      rw [hm v]
      exact Set.empty_subset _
  · intro s a hs ha
    cases a with
    | update ops => exact hs.update ops ha
    | internal evs timeUs => exact hs.internal hd evs timeUs ha
    | external e => exact hs.external hd e ha
    | rotate timeUs => exact ⟨covered_rotateLogs hd timeUs _ hs.covered, hs.future, hs.list⟩

end

/-- Diff-log coverage, over every run of the node: lines modified after the
version of log `k` are in the logs before `k`, and all modified lines are in
some log. A call that passes its time gate, and whose selected logs have no run
of 4 GiB, therefore sends every line modified after a subscriber's version. -/
theorem diff_logs_cover (d : AreaDesc) (hd : d.Wf) (s : CovState)
    (h : (coverageSystem d).Reachable s) :
    (∀ k < 4, ∀ v, (s.node.info k).versionEnd < v → ∀ l ∈ s.modified v,
      ∃ p < k, lineBit (s.node.mem.diff p) l = true) ∧
    (∀ v, ∀ l ∈ s.modified v, ∃ p < 4, lineBit (s.node.mem.diff p) l = true) ∧
    ∀ e : ExtCall, e.d = d → e.passes s.node.logs = true → e.Short s.node.logs →
      ∀ u, some u ∈ e.users → ∃ ms, (s.node.external e).tx.ring = s.node.tx.ring ++ ms ∧
        ∀ v, u < v → ∀ l ∈ s.modified v, Covers (ms.map MemMsg.run) (d.h/64+l) := by
  have hinv := covInv_reachable hd h
  refine ⟨?_, ?_, ?_⟩
  · intro k hk v hv l hl
    obtain ⟨p, hp, hbit⟩ := hinv.covered.newer k hk v hv hl
    exact ⟨p, hp, hbit.2⟩
  · intro v l hl
    obtain ⟨p, hp, hbit⟩ := hinv.covered.all v hl
    exact ⟨p, hp, hbit.2⟩
  · intro e he hpass hshort u hu
    subst he
    obtain ⟨ms, hring, hcov⟩ := external_sends e hd s.node.ctx s.node.logs hinv.list hpass hshort
    refine ⟨ms, hring, ?_⟩
    intro v huv l hl
    obtain ⟨hle, hstop, -⟩ := pivot_spec e s.node.logs.info
    -- the pivot's own log reaches no further than the subscriber
    have hreach : e.pivot s.node.logs.info < 4 →
        (s.node.logs.abs e.d).upTo (e.pivot s.node.logs.info) ≤ u := by
      intro hlt
      have hs := hstop hlt
      simp only [ExtCall.stopsAt, Bool.and_eq_true, decide_eq_true_iff] at hs
      exact le_trans hs.2 (versionMin_le hu)
    obtain ⟨p, hp, hbit⟩ := hinv.covered.missing hle hreach huv hl
    exact (hcov l hbit.1).mpr ⟨p, hp, hbit.2⟩

end Tasvir
