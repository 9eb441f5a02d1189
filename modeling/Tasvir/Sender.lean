import Mathlib.Tactic
import Tasvir.Changes
import Tasvir.CoverageRun
import Tasvir.Retransmit

/-! The emissions of an owner that never changes: each of them carries whatever
has changed since the one before. -/
namespace Tasvir
open RunLength

theorem rotateLogs_zero (d : AreaDesc) (timeUs : ℕ) (a : AreaLogs) :
    (rotateLogs d timeUs a).diff 0 = a.diff 0 ∧ (rotateLogs d timeUs a).info 0 = a.info 0 := by
  have hstep (a : AreaLogs) (i : ℕ) (hi : i ≠ 0) :
      (rotateLog d timeUs a i).diff 0 = a.diff 0 ∧ (rotateLog d timeUs a i).info 0 = a.info 0 := by
    unfold rotateLog
    simp only
    split_ifs
    · simp only [Function.update_of_ne (Ne.symm hi), Function.update_of_ne (show 0 ≠ i+1 by omega),
        and_self]
    · exact ⟨rfl, rfl⟩
  obtain ⟨h1, h2⟩ := hstep a 2 (by norm_num)
  obtain ⟨h3, h4⟩ := hstep (rotateLog d timeUs a 2) 1 (by norm_num)
  exact ⟨h3.trans h1, h4.trans h2⟩

/-- An external call that gets to the parser clears diff log 0, and no call moves
its version. -/
theorem external_log_zero (e : ExtCall) (hd : e.d.Wf) (c : SyncCtx) (a : AreaLogs) :
    (∀ l < e.d.offsetLogEnd/64, lineBit ((syncExternalArea e c a).2.1.diff 0) l =
      (lineBit (a.diff 0) l && !(e.passes a && decide (1 ≤ e.pivot a.info)))) ∧
    ((syncExternalArea e c a).2.1.info 0).versionEnd = (a.info 0).versionEnd := by
  rcases syncExternalArea_cases e c a with ⟨hp, hr⟩ | ⟨hp, h0, hr⟩ | ⟨hp, h1, hr⟩
  · rw [hr, hp]
    exact ⟨fun _ _ => by simp, rfl⟩
  · rw [hr, hp, h0]
    exact ⟨fun _ _ => by simp, rfl⟩
  · rw [hr, hp]
    obtain ⟨hlog, -⟩ := syncParseLog_logs ⟨e.d, e.pivot a.info, some 1⟩
      (externalEnv_wf e a.info h1) e.d.offsetLogEnd hd.end_aligned
      { c with tx := { c.tx with lastSyncExtBytes := 0 } } (a.diff 0) a.diff
    obtain ⟨b, hb⟩ := hd.end_aligned
    have hclear : ∀ l < e.d.offsetLogEnd/64,
        lineBit (cleared (a.diff 0) 0 (e.d.offsetLogEnd/4096)) l = false := by
      intro l hl
      rw [lineBit_cleared, if_pos (by omega)]
    have hzero : ∀ l, (lineBit (a.diff 0) l && !(true && decide (1 ≤ e.pivot a.info))) = false := by
      intro l
      rw [decide_eq_true h1]
      simp
    simp only
    split_ifs
    · obtain ⟨hdiff, hinfo⟩ := rotateLogs_zero e.d e.ndataTimeUs (handOver
        { a with
          lastSyncExtUs := e.tdataTimeUs
          diff := Function.update (syncParseLog ⟨e.d, e.pivot a.info, some 1⟩ 0 e.d.offsetLogEnd
            { c with tx := { c.tx with lastSyncExtBytes := 0 } } (a.diff 0) a.diff).1.diff 0
            (syncParseLog ⟨e.d, e.pivot a.info, some 1⟩ 0 e.d.offsetLogEnd
            { c with tx := { c.tx with lastSyncExtBytes := 0 } } (a.diff 0) a.diff).1.log })
      rw [hdiff, hinfo]
      refine ⟨fun l hl => ?_, ?_⟩
      · simp only [handOver, Function.update_self, hlog]
        rw [hclear l hl, hzero]
      · simp only [handOver, Function.update_self]
    · refine ⟨fun l hl => ?_, rfl⟩
      simp only [Function.update_self, hlog]
      rw [hclear l hl, hzero]

theorem Stream.wf {d : AreaDesc} {v : ℕ} {image : Mem} {prev : ℕ} {ms : List MemMsg}
    (h : Stream d v image prev ms)
    (hreg : ∀ l, Covers (ms.map MemMsg.run) l → 64*(l+1) ≤ 2^40) : ∀ m ∈ ms, m.Wf := by
  intro m hm
  obtain ⟨a, n, ha, hn, hpos, -⟩ := (h.mem hm).1.lines
  have hlast := hreg (a+n-1) ⟨m.run, List.mem_map_of_mem hm, by
    rw [MemMsg.Wf.run ha hn]
    exact ⟨by simp only; omega, by simp only; omega⟩⟩
  exact ⟨a, n, ha, hn, hpos, by omega⟩

/-- The owner between two emissions: `pub` has the copies of all versions, `img`
and `v` are those of the last emission. -/
structure SenderInv (d : AreaDesc) (s : OwnerNode) (pub : ℕ → Mem) (img : Mem) (v : ℕ) :
    Prop where
  counted : ∀ t, (s.mem.lists t).changed = 0
  others : ∀ t, t ≠ 0 → (s.mem.lists t).l = []
  /-- only the root descriptor can be left over, and only in the daemon's list -/
  rooted : ∀ it ∈ (s.mem.lists 0).l, it ∈ rootItems d
  room : (s.mem.lists 0).l.length ≤ syncListLen
  next : s.mem.rw (d.h+offVersion) = s.mem.ro (d.h+offVersion)+1
  current : ∀ x, d.Tracked x → s.mem.ro x = pub (s.mem.ro (d.h+offVersion)) x
  last : v ≤ s.mem.ro (d.h+offVersion)
  same : v = s.mem.ro (d.h+offVersion) → ∀ x, d.Tracked x → img x = s.mem.ro x
  logged : ∀ x, d.Tracked x → img x ≠ s.mem.ro x →
    lineBit (s.mem.diff 0) (x/64-d.h/64) = true
  opened : (s.info 0).versionEnd ≤ s.mem.ro (d.h+offVersion)

/-- The copy of version `v`, on the cells a version fixes. -/
def Snapshot (d : AreaDesc) (pub : ℕ → Mem) (v : ℕ) (img : Mem) : Prop :=
  img (d.h+offVersion) = v ∧ ∀ x, d.Tracked x → img x = pub v x

/-- An emission of version `v'` with the copy `img'`, right after one of version
`v` with the copy `img`. -/
structure Follows (d : AreaDesc) (pub : ℕ → Mem) (img : Mem) (v : ℕ) (img' : Mem) (v' : ℕ)
    (ms : List MemMsg) : Prop where
  stream : Stream d v' img' 0 ms
  marked : Marked true ms
  wf : ∀ m ∈ ms, m.Wf
  pos : 0 < v'
  le : v ≤ v'
  same : v = v' → ∀ x, d.Tracked x → img x = img' x
  covers : ∀ x, d.Tracked x → img x ≠ img' x → Covers (ms.map MemMsg.run) (x/64)
  published : Snapshot d pub v' img'

def OwnerNode.record (d : AreaDesc) (evs : List SyncEvent) (timeUs : ℕ) (s : OwnerNode)
    (pub : ℕ → Mem) : ℕ → Mem :=
  if hasChanges (syncUpdated d true s.mem evs) then
    Function.update pub (s.mem.rw (d.h+offVersion)) (s.internal d evs timeUs).mem.ro
  else pub

section
variable {d : AreaDesc} (hd : d.Wf) {s : OwnerNode} {pub : ℕ → Mem} {img : Mem} {v : ℕ}

/-- An owner with version 0 published and nothing sent yet. -/
theorem SenderInv.fresh (hlists : ∀ t, (s.mem.lists t).l = [] ∧ (s.mem.lists t).changed = 0)
    (hversions : s.mem.ro (d.h+offVersion) = 0 ∧ s.mem.rw (d.h+offVersion) = 1 ∧
      (s.info 0).versionEnd = 0)
    (hpub : ∀ x, d.Tracked x → pub 0 x = s.mem.ro x) : SenderInv d s pub s.mem.ro 0 := by
  obtain ⟨hv, hw, hi⟩ := hversions
  refine ⟨fun t => (hlists t).2, fun t _ => (hlists t).1, ?_, ?_, ?_, ?_, Nat.zero_le _,
    fun _ _ _ => rfl, fun x _ hne => absurd rfl hne, ?_⟩
  · rw [(hlists 0).1]
    exact fun it hit => absurd hit List.not_mem_nil
  · rw [(hlists 0).1]
    exact Nat.zero_le _
  · rw [hv, hw]
  · intro x hx
    rw [hv, hpub x hx]
  · rw [hi]
    exact Nat.zero_le _

theorem SenderInv.update (h : SenderInv d s pub img v) (ops : List OwnerOp)
    (hv : ∀ op ∈ ops, op.Valid d) :
    SenderInv d { s with mem := s.mem.ops d ops } pub img v := by
  obtain ⟨hro, hdiff, hlists, -⟩ := ops_frame (d := d) ops s.mem
  have hrw := ops_header ops hv s.mem offVersion (by norm_num [offVersion, sizeofHeader])
  refine ⟨?_, ?_, ?_, ?_, ?_, ?_, ?_, ?_, ?_, ?_⟩
  · rw [hlists]
    exact h.counted
  · rw [hlists]
    exact h.others
  · rw [hlists]
    exact h.rooted
  · rw [hlists]
    exact h.room
  · rw [hrw, hro]
    exact h.next
  · rw [hro]
    exact h.current
  · rw [hro]
    exact h.last
  · rw [hro]
    exact h.same
  · rw [hro, hdiff]
    exact h.logged
  · rw [hro]
    exact h.opened

include hd

theorem SenderInv.foreign (h : SenderInv d s pub img v) (t : ℕ) :
    Foreign d (s.mem.lists t).l := by
  intro it hit
  by_cases ht : t = 0
  · subst ht
    exact rootItems_foreign d hd it (h.rooted it hit)
  · rw [h.others t ht] at hit
    exact absurd hit List.not_mem_nil

omit hd in
theorem SenderInv.lists (h : SenderInv d s pub img v) (evs : List SyncEvent)
    (hev : Completes d evs) (t : ℕ) :
    ((syncEvents d true s.mem evs).lists t).changed = 0 ∧
    (((syncEvents d true s.mem evs).lists t).l = [] ∨
      ((syncEvents d true s.mem evs).lists t).l = (s.mem.lists t).l) := by
  obtain ⟨h1, h2⟩ := lists_events d true t evs (fun p o n q hx => hev.flushed p t o n q hx) s.mem
  by_cases hp : .process t ∈ evs
  · exact ⟨(h1 hp).2, Or.inl (h1 hp).1⟩
  · rw [h2 hp]
    exact ⟨h.counted t, Or.inr rfl⟩

omit hd in
theorem SenderInv.bytes (h : SenderInv d s pub img v) (hend : d.offsetLogEnd < 2^32)
    (hroot : d.isRoot = true → d.offsetLogEnd ≤ 2^31) :
    64*((s.mem.lists 0).l.map SyncItem.lenScaled).sum+d.offsetLogEnd < 2^32 := by
  have hlen : ((s.mem.lists 0).l.map SyncItem.lenScaled).sum ≤ (s.mem.lists 0).l.length*2 := by
    have hle := List.sum_le_card_nsmul ((s.mem.lists 0).l.map SyncItem.lenScaled) 2 (by
      intro n hn
      obtain ⟨it, hit, rfl⟩ := List.mem_map.mp hn
      have hmem := h.rooted it hit
      rw [rootItems] at hmem
      split_ifs at hmem
      · rw [List.mem_singleton.mp hmem, rootDescLines]
      · exact absurd hmem List.not_mem_nil)
    rwa [List.length_map, smul_eq_mul] at hle
  have hroom := h.room
  rw [syncListLen] at hroom
  cases hr : d.isRoot
  · have hnil : (s.mem.lists 0).l = [] := by
      apply List.eq_nil_iff_forall_not_mem.mpr
      intro it hit
      have hmem := h.rooted it hit
      rw [rootItems, hr] at hmem
      exact absurd hmem List.not_mem_nil
    rw [hnil]
    simpa using hend
  · have hle := hroot hr
    omega

variable (hpos : 0 < d.offsetLogEnd)
include hpos

omit hpos in
theorem SenderInv.unlogged (h : SenderInv d s pub img v) (hend : d.offsetLogEnd < 2^32)
    (hroot : d.isRoot = true → d.offsetLogEnd ≤ 2^31) (evs : List SyncEvent)
    (hev : Completes d evs) (hch : hasChanges (syncUpdated d true s.mem evs) = false) :
    ∀ l, d.Has l → lineBit s.mem.log l = false := by
  simp only [hasChanges, Bool.or_eq_false_iff, bne_eq_false_iff_eq] at hch
  exact clean_of_sum_zero hd s.mem true evs hev h.counted h.others (h.bytes hend hroot) hch.2

theorem SenderInv.quiet (h : SenderInv d s pub img v) (hend : d.offsetLogEnd < 2^32)
    (hroot : d.isRoot = true → d.offsetLogEnd ≤ 2^31) (evs : List SyncEvent)
    (hev : Completes d evs) (hch : hasChanges (syncUpdated d true s.mem evs) = false) :
    ∀ x, d.Tracked x → (syncEvents d true s.mem evs).ro x = s.mem.ro x := by
  have hpub := syncEvents_published hd true s.mem evs hev (hev.smallChunks hend) (h.foreign hd)
  intro x hx
  rw [hpub.ro_eq x (hx.has hd hpos),
    h.unlogged hd hend hroot evs hev hch _ (hx.has hd hpos), if_neg Bool.false_ne_true]

omit hpos in
/-- What a sync does to the payload, the log and diff log 0, with or without a
publication. -/
theorem SenderInv.internal_effect (h : SenderInv d s pub img v) (hend : d.offsetLogEnd < 2^32)
    (evs : List SyncEvent) (hev : Completes d evs) (timeUs : ℕ) :
    (∀ x, d.Payload x → (s.internal d evs timeUs).mem.rw x = s.mem.rw x ∧
      (s.internal d evs timeUs).mem.ro x =
        if lineBit s.mem.log (x/64) then s.mem.rw x else s.mem.ro x) ∧
    (∀ l, d.Has l → lineBit (s.internal d evs timeUs).mem.log l = false) ∧
    ∀ l < d.offsetLogEnd/64, lineBit ((s.internal d evs timeUs).mem.diff 0) l =
      ((lineBit (s.mem.diff 0) l || lineBit s.mem.log (d.h/64+l)) ||
        (hasChanges (syncUpdated d true s.mem evs) && decide (l = 1))) := by
  have hpub := syncEvents_published hd true s.mem evs hev (hev.smallChunks hend) (h.foreign hd)
  unfold OwnerNode.internal
  cases hch : hasChanges (syncUpdated d true s.mem evs)
  · simp only [Bool.false_eq_true, ↓reduceIte, Bool.false_and, Bool.or_false]
    refine ⟨fun x hx => ⟨?_, hpub.ro_eq x (hx.has hd)⟩, hpub.log_in, hpub.diff_eq rfl⟩
    rw [hpub.rw_eq]
  · simp only [↓reduceIte, Bool.true_and]
    refine ⟨?_, hpub.log_in, ?_⟩
    · intro x hx
      obtain ⟨h1, h2⟩ := publish_payload { s with mem := syncEvents d true s.mem evs }
        timeUs hx
      rw [h1, h2]
      refine ⟨?_, hpub.ro_eq x (hx.has hd)⟩
      simp only [hpub.rw_eq]
    · intro l hl
      have hmark := lineBit_markVersion ((syncEvents d true s.mem evs).diff 0) l
      simp only [OwnerNode.publish, Function.update_self]
      rw [hmark, hpub.diff_eq rfl l hl]

theorem SenderInv.internal_version (h : SenderInv d s pub img v) (hend : d.offsetLogEnd < 2^32)
    (hroot : d.isRoot = true → d.offsetLogEnd ≤ 2^31) (evs : List SyncEvent)
    (hev : Completes d evs) (timeUs : ℕ) :
    (s.internal d evs timeUs).mem.ro (d.h+offVersion) =
      if hasChanges (syncUpdated d true s.mem evs) then s.mem.rw (d.h+offVersion)
      else s.mem.ro (d.h+offVersion) := by
  have hpub := syncEvents_published hd true s.mem evs hev (hev.smallChunks hend) (h.foreign hd)
  unfold OwnerNode.internal
  cases hch : hasChanges (syncUpdated d true s.mem evs)
  · exact h.quiet hd hpos hend hroot evs hev hch _ (Or.inr rfl)
  · simp only [↓reduceIte, OwnerNode.publish, Function.update_self, hpub.rw_eq]

omit hd hpos in
theorem SenderInv.lists_internal (h : SenderInv d s pub img v) (evs : List SyncEvent)
    (hev : Completes d evs) (timeUs : ℕ) :
    (∀ t, ((s.internal d evs timeUs).mem.lists t).changed = 0) ∧
    (∀ t, t ≠ 0 → ((s.internal d evs timeUs).mem.lists t).l = []) ∧
    (∀ it ∈ ((s.internal d evs timeUs).mem.lists 0).l, it ∈ rootItems d) ∧
    ((s.internal d evs timeUs).mem.lists 0).l.length ≤ syncListLen := by
  have hsame : (s.internal d evs timeUs).mem.lists = (syncEvents d true s.mem evs).lists := by
    unfold OwnerNode.internal
    simp only
    split_ifs <;> rfl
  have hlists := h.lists evs hev
  rw [hsame]
  refine ⟨fun t => (hlists t).1, ?_, ?_, ?_⟩
  · intro t ht
    rcases (hlists t).2 with hl | hl
    · exact hl
    · rw [hl]
      exact h.others t ht
  · intro it hit
    rcases (hlists 0).2 with hl | hl
    · rw [hl] at hit
      exact absurd hit List.not_mem_nil
    · rw [hl] at hit
      exact h.rooted it hit
  · rcases (hlists 0).2 with hl | hl
    · rw [hl]
      exact Nat.zero_le _
    · rw [hl]
      exact h.room

/-- After a sync the RW copy is one version ahead, and log 0 ends at the RO version or before. -/
theorem SenderInv.internal_next (h : SenderInv d s pub img v) (hend : d.offsetLogEnd < 2^32)
    (hroot : d.isRoot = true → d.offsetLogEnd ≤ 2^31) (evs : List SyncEvent)
    (hev : Completes d evs) (timeUs : ℕ) :
    (s.internal d evs timeUs).mem.rw (d.h+offVersion) =
      (s.internal d evs timeUs).mem.ro (d.h+offVersion)+1 ∧
    ((s.internal d evs timeUs).info 0).versionEnd ≤
      (s.internal d evs timeUs).mem.ro (d.h+offVersion) := by
  rw [h.internal_version hd hpos hend hroot evs hev timeUs]
  unfold OwnerNode.internal
  cases hch : hasChanges (syncUpdated d true s.mem evs)
  · simp only [Bool.false_eq_true, ↓reduceIte, rw_events]
    exact ⟨h.next, h.opened⟩
  · simp only [↓reduceIte, OwnerNode.publish, Function.update_self, rw_events, le_refl, and_self]

/-- After a sync diff log 0 has each line that differs from the last emission. -/
theorem SenderInv.internal_logged (h : SenderInv d s pub img v) (hend : d.offsetLogEnd < 2^32)
    (hroot : d.isRoot = true → d.offsetLogEnd ≤ 2^31) (evs : List SyncEvent)
    (hev : Completes d evs) (timeUs : ℕ) {x : ℕ} (hx : d.Tracked x)
    (hne : img x ≠ (s.internal d evs timeUs).mem.ro x) :
    lineBit ((s.internal d evs timeUs).mem.diff 0) (x/64-d.h/64) = true := by
  obtain ⟨hcell, -, hdiff⟩ := h.internal_effect hd hend evs hev timeUs
  obtain ⟨h1, h2⟩ := hx.has hd hpos
  rw [hdiff _ (by omega), show d.h/64+(x/64-d.h/64) = x/64 from by omega]
  rcases hx with hx | rfl
  · rw [(hcell x hx).2] at hne
    cases hb : lineBit s.mem.log (x/64)
    · rw [hb, if_neg Bool.false_ne_true] at hne
      rw [h.logged x (Or.inl hx) hne]
      rfl
    · rw [Bool.or_true]
      rfl
  · -- the version changes only with a publication, which marks its line
    rw [h.internal_version hd hpos hend hroot evs hev timeUs] at hne
    cases hch : hasChanges (syncUpdated d true s.mem evs)
    · rw [hch, if_neg Bool.false_ne_true] at hne
      rw [h.logged _ (Or.inr rfl) hne]
      rfl
    · obtain ⟨a, ha⟩ := hd.h_aligned
      have hline : (d.h+offVersion)/64-d.h/64 = 1 := by
        rw [offVersion]
        omega
      rw [hline, decide_eq_true rfl, Bool.and_true, Bool.or_true]

/-- An internal sync either changes nothing of the area or publishes the next
version, with what it changed in diff log 0. -/
theorem SenderInv.internal (h : SenderInv d s pub img v) (hend : d.offsetLogEnd < 2^32)
    (hroot : d.isRoot = true → d.offsetLogEnd ≤ 2^31) (evs : List SyncEvent)
    (hev : Completes d evs) (timeUs : ℕ) :
    SenderInv d (s.internal d evs timeUs) (s.record d evs timeUs pub) img v ∧
    ∀ w ≤ s.mem.ro (d.h+offVersion), s.record d evs timeUs pub w = pub w := by
  obtain ⟨hcounted, hothers, hrooted, hroom⟩ := h.lists_internal evs hev timeUs
  obtain ⟨hnext, hopened⟩ := h.internal_next hd hpos hend hroot evs hev timeUs
  have hver := h.internal_version hd hpos hend hroot evs hev timeUs
  have hlogged : ∀ x, d.Tracked x → img x ≠ (s.internal d evs timeUs).mem.ro x →
      lineBit ((s.internal d evs timeUs).mem.diff 0) (x/64-d.h/64) = true :=
    fun x hx => h.internal_logged hd hpos hend hroot evs hev timeUs hx
  have hlast := h.last
  cases hch : hasChanges (syncUpdated d true s.mem evs)
  · -- nothing was logged
    rw [hch, if_neg Bool.false_ne_true] at hver
    have hro : ∀ x, d.Tracked x → (s.internal d evs timeUs).mem.ro x = s.mem.ro x := by
      intro x hx
      rw [← h.quiet hd hpos hend hroot evs hev hch x hx, OwnerNode.internal, hch]
      rfl
    have hpub : s.record d evs timeUs pub = pub := by
      rw [OwnerNode.record, hch, if_neg Bool.false_ne_true]
    rw [hpub]
    refine ⟨⟨hcounted, hothers, hrooted, hroom, hnext, ?_, ?_, ?_, hlogged, hopened⟩,
      fun _ _ => rfl⟩
    · intro x hx
      rw [hro x hx, hver]
      exact h.current x hx
    · rw [hver]
      exact hlast
    · rw [hver]
      intro hv x hx
      rw [hro x hx]
      exact h.same hv x hx
  · -- the next version is published
    rw [hch, if_pos rfl, h.next] at hver
    have hpub : s.record d evs timeUs pub =
        Function.update pub (s.mem.ro (d.h+offVersion)+1) (s.internal d evs timeUs).mem.ro := by
      rw [OwnerNode.record, hch, if_pos rfl, h.next]
    rw [hpub]
    refine ⟨⟨hcounted, hothers, hrooted, hroom, hnext, ?_, ?_, ?_, hlogged, hopened⟩, ?_⟩
    · -- `current` holds since the copy was recorded just now
      intro x _
      rw [hver, Function.update_self]
    · rw [hver]
      exact Nat.le_succ_of_le hlast
    · rw [hver]
      intro heq
      exact absurd heq (by omega)
    · intro w hw
      rw [Function.update_of_ne (by omega)]

omit hd hpos in
theorem OwnerNode.external_keeps (e : ExtCall) (hd : e.d.Wf) (s : OwnerNode) :
    (s.external e).mem.ro = s.mem.ro ∧ (s.external e).mem.rw = s.mem.rw ∧
    ((s.external e).info 0).versionEnd = (s.info 0).versionEnd ∧
    (∀ t, t ≠ 0 → (s.external e).mem.lists t = s.mem.lists t) ∧
    (s.external e).mem.lists 0 = (syncExternalArea e s.ctx s.logs).1.sl := by
  obtain ⟨⟨hro, hrw, -⟩, -⟩ := external_frame e hd.end_aligned s.ctx s.logs
  obtain ⟨-, hinfo⟩ := external_log_zero e hd s.ctx s.logs
  refine ⟨hro, hrw, hinfo, ?_, ?_⟩
  · intro t ht
    simp only [OwnerNode.external, Function.update_of_ne ht]
  · simp only [OwnerNode.external, Function.update_self]

omit hd hpos in
theorem SenderInv.lists_external {e : ExtCall} (hd : e.d.Wf) (h : SenderInv d s pub img v)
    (hch : (syncExternalArea e s.ctx s.logs).1.sl.changed = 0) :
    (∀ t, ((s.external e).mem.lists t).changed = 0) ∧
    ∀ t, t ≠ 0 → ((s.external e).mem.lists t).l = [] := by
  obtain ⟨-, -, -, hother, hzero⟩ := OwnerNode.external_keeps e hd s
  constructor
  · intro t
    by_cases ht : t = 0
    · rw [ht, hzero]
      exact hch
    · rw [hother t ht]
      exact h.counted t
  · intro t ht
    rw [hother t ht]
    exact h.others t ht

omit hpos in
theorem SenderInv.region (h : SenderInv d s pub img v) {l : ℕ}
    (hl : Covers (((s.mem.lists 0).l ++ rootItems d).map SyncItem.run) l ∨
      l < d.h/64+d.offsetLogEnd/64) : 64*(l+1) ≤ 2^40 := by
  have hinside := hd.inside
  obtain ⟨a, ha⟩ := hd.h_aligned
  rcases hl with ⟨r, hr, -, h2⟩ | hl
  · -- the root descriptor
    obtain ⟨it, hit, rfl⟩ := List.mem_map.mp hr
    have hmem : it ∈ rootItems d := by
      rcases List.mem_append.mp hit with hit | hit
      · exact h.rooted it hit
      · exact hit
    rw [rootItems] at hmem
    split_ifs at hmem
    · rw [List.mem_singleton.mp hmem] at h2
      simp only [SyncItem.run, rootDescLines] at h2
      omega
    · exact absurd hmem List.not_mem_nil
  · omega

/-- A call with a line to send emits what has changed since the last emission. -/
theorem SenderInv.sends (h : SenderInv d s pub img v) (hend : d.offsetLogEnd < 2^32)
    (e : ExtCall) (he : e.d = d) (hsends : e.Sends s.logs) :
    ∃ ms, (s.external e).tx.ring = s.tx.ring ++ ms ∧
      Follows d pub img v s.mem.ro (s.mem.ro (d.h+offVersion)) ms ∧
      SenderInv d (s.external e) pub s.mem.ro (s.mem.ro (d.h+offVersion)) ∧
      ∀ l < d.offsetLogEnd/64, lineBit ((s.external e).mem.diff 0) l = false ∧
        (lineBit (s.mem.diff 0) l = true → Covers (ms.map MemMsg.run) (d.h/64+l)) := by
  subst he
  obtain ⟨hro, hrw, hinfo, -, hzero⟩ := OwnerNode.external_keeps e hd s
  obtain ⟨hpass, p, hp, l, hl, hbit⟩ := hsends
  have hpivot : 1 ≤ e.pivot s.logs.info := by omega
  have hshort : e.Short s.logs := by
    intro a ha
    omega
  obtain ⟨ms, rs, hsend, hmark, hnil, hch, hrs⟩ := external_emits e hd s.ctx s.logs
    (h.foreign hd 0) hpass hshort ⟨l, hl, p, hp, hbit⟩
  obtain ⟨hcounted, hothers⟩ := h.lists_external hd hch
  -- no line lies behind the data region, so the offsets of the messages do not wrap
  have hreg : ∀ l, Covers (ms.map MemMsg.run) l → 64*(l+1) ≤ 2^40 := by
    intro l hl
    apply h.region hd
    exact ((hrs l).mp ((hsend.covers l).mp hl)).imp_right fun hin => hin.2.1
  refine ⟨ms, hsend.ring, ⟨hsend.stream, hmark, hsend.stream.wf hreg, ?_, h.last, h.same, ?_,
    ⟨rfl, h.current⟩⟩, ⟨hcounted, hothers, ?_, ?_, ?_, ?_, ?_, ?_, ?_, ?_⟩, ?_⟩
  · simp only [ExtCall.passes, Bool.and_eq_true, bne_iff_ne] at hpass
    have hne := hpass.1.2
    have hle := h.opened
    simp only [OwnerNode.logs] at hne
    omega
  · -- what differs from the last emission is in log 0, which every pivot includes
    intro x hx hne
    obtain ⟨h1, h2⟩ := hx.has hd hpos
    rw [hsend.covers, hrs]
    exact Or.inr ⟨h1, h2, 0, hpivot, h.logged x hx hne⟩
  · rw [hzero, hnil]
    exact fun it hit => absurd hit List.not_mem_nil
  · rw [hzero, hnil]
    exact Nat.zero_le _
  · rw [hrw, hro]
    exact h.next
  · rw [hro]
    exact h.current
  · rw [hro]
  · rw [hro]
    exact fun _ _ _ => rfl
  · rw [hro]
    exact fun x _ hne => absurd rfl hne
  · rw [hro, hinfo]
    exact h.opened
  · intro l hl
    constructor
    · have hafter := (external_log_zero e hd s.ctx s.logs).1 l hl
      rw [hpass, decide_eq_true hpivot, Bool.and_true, Bool.not_true, Bool.and_false] at hafter
      exact hafter
    · intro hbit
      rw [hsend.covers, hrs]
      refine Or.inr ⟨by omega, by omega, 0, hpivot, ?_⟩
      rw [Nat.add_sub_cancel_left]
      exact hbit

omit hpos in
/-- A call without a line to send leaves diff log 0 alone, or finds it empty. -/
theorem external_keeps_log (e : ExtCall) (he : e.d = d) (hno : ¬e.Sends s.logs) :
    ∀ l < d.offsetLogEnd/64,
      lineBit ((s.external e).mem.diff 0) l = lineBit (s.mem.diff 0) l := by
  subst he
  intro l hl
  have hafter := (external_log_zero e hd s.ctx s.logs).1 l hl
  by_cases hp : (e.passes s.logs && decide (1 ≤ e.pivot s.logs.info)) = true
  · have hp' := hp
    rw [Bool.and_eq_true, decide_eq_true_iff] at hp'
    have hclear : lineBit (s.logs.diff 0) l = false := by
      rw [← Bool.not_eq_true]
      exact fun hbit => hno ⟨hp'.1, 0, hp'.2, l, hl, hbit⟩
    rw [hclear, Bool.false_and] at hafter
    exact hafter.trans hclear.symm
  · rw [Bool.not_eq_true] at hp
    rw [hp, Bool.not_false, Bool.and_true] at hafter
    exact hafter

theorem SenderInv.silent (h : SenderInv d s pub img v) (e : ExtCall) (he : e.d = d)
    (hfree : d.isRoot = true → (s.mem.lists 0).l.length < syncListLen)
    (hno : ¬e.Sends s.logs) :
    (s.external e).tx.ring = s.tx.ring ∧ SenderInv d (s.external e) pub img v := by
  have hkeep := external_keeps_log hd e he hno
  subst he
  obtain ⟨hro, hrw, hinfo, -, hzero⟩ := OwnerNode.external_keeps e hd s
  have hnone : e.passes s.logs = true → ∀ l < e.d.offsetLogEnd/64, ∀ p < e.pivot s.logs.info,
      lineBit (s.logs.diff p) l = false := by
    intro hp l hl p hpl
    rw [← Bool.not_eq_true]
    exact fun hbit => hno ⟨hp, p, hpl, l, hl, hbit⟩
  obtain ⟨hring, hch, hl⟩ := external_quiet e hd s.ctx s.logs hnone
  obtain ⟨hcounted, hothers⟩ := h.lists_external hd (hch.trans (h.counted 0))
  -- without a change the root descriptor may stay in the list
  have hlist : ((s.external e).mem.lists 0).l = (s.mem.lists 0).l ∨
      ((s.external e).mem.lists 0).l = (s.mem.lists 0).l ++ rootItems e.d := by
    rw [hzero]
    exact hl
  refine ⟨hring, ⟨hcounted, hothers, ?_, ?_, ?_, ?_, ?_, ?_, ?_, ?_⟩⟩
  · intro it hit
    rcases hlist with hl | hl
    · rw [hl] at hit
      exact h.rooted it hit
    · rw [hl] at hit
      rcases List.mem_append.mp hit with hit | hit
      · exact h.rooted it hit
      · exact hit
  · have hroom := h.room
    rcases hlist with hl | hl
    · rw [hl]
      exact hroom
    · rw [hl, List.length_append, rootItems]
      split_ifs with hr
      · exact hfree hr
      · exact hroom
  · rw [hrw, hro]
    exact h.next
  · rw [hro]
    exact h.current
  · rw [hro]
    exact h.last
  · rw [hro]
    exact h.same
  · rw [hro]
    intro x hx hne
    obtain ⟨h1, h2⟩ := hx.has hd hpos
    rw [hkeep _ (by omega)]
    exact h.logged x hx hne
  · rw [hro, hinfo]
    exact h.opened

/-- An external call sends nothing, or an emission that follows the last one. -/
theorem SenderInv.external (h : SenderInv d s pub img v) (hend : d.offsetLogEnd < 2^32)
    (e : ExtCall) (he : e.d = d)
    (hfree : d.isRoot = true → (s.mem.lists 0).l.length < syncListLen) :
    ((s.external e).tx.ring = s.tx.ring ∧ SenderInv d (s.external e) pub img v ∧
      ∀ l < d.offsetLogEnd/64,
        lineBit ((s.external e).mem.diff 0) l = lineBit (s.mem.diff 0) l) ∨
    ∃ ms, (s.external e).tx.ring = s.tx.ring ++ ms ∧
      Follows d pub img v s.mem.ro (s.mem.ro (d.h+offVersion)) ms ∧
      SenderInv d (s.external e) pub s.mem.ro (s.mem.ro (d.h+offVersion)) ∧
      ∀ l < d.offsetLogEnd/64, lineBit ((s.external e).mem.diff 0) l = false ∧
        (lineBit (s.mem.diff 0) l = true → Covers (ms.map MemMsg.run) (d.h/64+l)) := by
  by_cases hs : e.Sends s.logs
  · exact Or.inr (h.sends hd hpos hend e he hs)
  · obtain ⟨hring, hinv⟩ := h.silent hd hpos e he hfree hs
    exact Or.inl ⟨hring, hinv, external_keeps_log hd e he hs⟩

omit hd hpos in
theorem SenderInv.rotate (h : SenderInv d s pub img v) (timeUs : ℕ) :
    SenderInv d (s.rotate d timeUs) pub img v := by
  obtain ⟨hdiff, hinfo⟩ := rotateLogs_zero d timeUs s.logs
  refine ⟨h.counted, h.others, h.rooted, h.room, h.next, h.current, h.last, h.same, ?_, ?_⟩
  · intro x hx hne
    simp only [OwnerNode.rotate, hdiff]
    exact h.logged x hx hne
  · simp only [OwnerNode.rotate, hinfo]
    exact h.opened

end

end Tasvir
