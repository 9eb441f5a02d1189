import Mathlib.Tactic
import Tasvir.CoverageRun

/-! Runs of set lines that reach 4 GiB. An item keeps its length in lines in 32
bits and scales it in 32-bit arithmetic, so of a longer run only a part is sent. -/
namespace Tasvir
open RunLength AgedLogs Machine

section
variable (e : ParseEnv) (he : e.Wf) (len : ℕ) (hl : 32768 ∣ len) (hpos : 0 < len)
variable (c : SyncCtx) (log : Words) (diff : ℕ → Words)
variable (hall : ∀ l < len/64, lineBit (merged e log diff) l = true)
include hl hpos hall

theorem chunkRuns_ones : chunkRuns e 0 len log diff =
    { Scan.init ((e.d.h+0)/64) with ones := len/64 } := by
  have hbits : unitBits (merged e log diff) (0/4096) (len/4096) =
      List.replicate (len/64) true := by
    apply List.eq_replicate_iff.mpr
    constructor
    · rw [length_unitBits]
      omega
    · intro b hb
      obtain ⟨i, hi⟩ := List.mem_iff_getElem?.mp hb
      have hlt : i < (unitBits (merged e log diff) (0/4096) (len/4096)).length := by
        by_contra hge
        rw [List.getElem?_eq_none (by omega)] at hi
        exact absurd hi (by simp)
      rw [length_unitBits] at hlt
      have hset := (getElem?_unitBits (merged e log diff) (0/4096) (len/4096) i).mpr
        ⟨hlt, by rw [Nat.zero_div, Nat.zero_mul, Nat.zero_add]; exact hall i (by omega)⟩
      rw [hset] at hi
      exact (Option.some.inj hi).symm
  rw [chunkRuns, hbits, Scan.read_ones _ _ _ (by omega)]
  simp [Scan.init]

include he

/-- A log that is all ones is one run, handed over by the last batch only. -/
theorem lastBatch_ones (hc : (parseInit e 0 c).acc.sl.l = []) :
    let s := lastBatch (parseGroups e ((len/4096+7)/8) (0/4096) ⟨parseInit e 0 c, log, diff⟩).scan
    s.acc.sl.l = [⟨e.d.h/64, len/64%2^32⟩] ∧ s.total = len/64 ∧
    s.acc.sl.changed = (parseInit e 0 c).acc.sl.changed ∧
    s.acc.tx = (parseInit e 0 c).acc.tx ∧ s.acc.ro = (parseInit e 0 c).acc.ro := by
  -- the simulation relation: nothing is queued or sent before the first run ends
  obtain ⟨R, hR⟩ : ∃ R : SyncCtx → List Run → Prop, R = fun c' rs => rs = [] →
      c'.sl.l = [] ∧ c'.sl.changed = (parseInit e 0 c).acc.sl.changed ∧
      c'.tx = (parseInit e 0 c).acc.tx ∧ c'.ro = (parseInit e 0 c).acc.ro := ⟨_, rfl⟩
  have hpush : ∀ c' rs s n, R c' rs → R (pushItem c' s n) (Scan.pushRun rs s n) := by
    subst hR
    intro c' rs s n h hnil
    by_cases hn : n = 0
    · subst hn
      exact h hnil
    · simp [Scan.pushRun, hn] at hnil
  have hflush : ∀ c' rs, R c' rs → R (syncProcessChanges e.d false e.external c').1 rs := by
    subst hR
    intro c' rs h hnil
    obtain ⟨h1, h2, h3, h4⟩ := h hnil
    simp only [syncProcessChanges, h1, processItems]
    exact ⟨trivial, h2, h3, h4⟩
  have hinit : Scan.Sim R (parseInit e 0 c) (Scan.init ((e.d.h+0)/64)) := by
    subst hR
    exact ⟨fun _ => ⟨hc, rfl, rfl, rfl⟩, rfl, rfl, rfl, rfl⟩
  obtain ⟨-, -, hs⟩ := parseGroups_spec e he hpush hflush
    ((len/4096+7)/8) (0/4096) ⟨parseInit e 0 c, log, diff⟩ _ hinit
  rw [show 8*((len/4096+7)/8) = len/4096 from by omega] at hs
  have hones := chunkRuns_ones e len hl hpos log diff hall
  rw [chunkRuns] at hones
  rw [hones] at hs
  generalize parseGroups e ((len/4096+7)/8) (0/4096) ⟨parseInit e 0 c, log, diff⟩ = p at hs
  subst hR
  obtain ⟨h1, h2, h3, h4⟩ := hs.acc rfl
  have hlen : p.scan.ones = len/64 := hs.ones
  have hne : p.scan.ones ≠ 0 := by omega
  have hstart : p.scan.start = (e.d.h+0)/64 := hs.start
  have htotal : p.scan.total = 0 := hs.total
  have hlast : lastBatch p.scan = { p.scan with
      acc := pushItem p.scan.acc p.scan.start p.scan.ones
      total := p.scan.total+p.scan.ones } := if_pos hne
  rw [hlast]
  refine ⟨?_, ?_, h2, h3, h4⟩
  · simp only [pushItem, h1, hlen, hstart, Nat.add_zero, List.nil_append]
    rw [if_neg (by omega)]
  · simp only [htotal, hlen, Nat.zero_add]

end

/-- The defect of the 32-bit length: of an area whose selected lines are all
set, an external sync sends only the lines that 32 bits of byte length count. -/
theorem external_long_run (e : ExtCall) (hd : e.d.Wf) (c : SyncCtx) (a : AreaLogs)
    (hroot : e.d.isRoot = false) (hlist : c.sl.l = []) (hp : e.passes a = true)
    (h1 : 1 ≤ e.pivot a.info) (hpos : 0 < e.d.offsetLogEnd)
    (hall : ∀ l < e.d.offsetLogEnd/64, ∃ p < e.pivot a.info, lineBit (a.diff p) l = true) :
    ∃ ms, (syncExternalArea e c a).1.tx.ring = c.tx.ring ++ ms ∧
      ∀ l, Covers (ms.map MemMsg.run) l ↔
        e.d.h/64 ≤ l ∧ l < e.d.h/64+e.d.offsetLogEnd/64%2^26 := by
  rcases syncExternalArea_cases e c a with ⟨hn, -⟩ | ⟨-, h0, -⟩ | ⟨-, -, hr⟩
  · rw [hp] at hn
    exact Bool.noConfusion hn
  · omega
  · rw [hr]
    have hwf := externalEnv_wf e a.info h1
    have hmerged : ∀ l < e.d.offsetLogEnd/64,
        lineBit (merged ⟨e.d, e.pivot a.info, some 1⟩ (a.diff 0) a.diff) l = true :=
      fun l hl => (lineBit_merged ⟨e.d, e.pivot a.info, some 1⟩ h1 a.diff l).mpr (hall l hl)
    have hex := external_eq_true ⟨e.d, e.pivot a.info, some 1⟩ h1
    generalize hc' : ({ c with tx := { c.tx with lastSyncExtBytes := 0 } } : SyncCtx) = c'
    have hl0 : (parseInit ⟨e.d, e.pivot a.info, some 1⟩ 0 c').acc.sl.l = [] := by
      rw [parseInit_list _ h1, ← hc', rootItems, hroot]
      simpa using hlist
    obtain ⟨hl, htotal, -, htx, -⟩ := lastBatch_ones ⟨e.d, e.pivot a.info, some 1⟩ hwf
      e.d.offsetLogEnd hd.end_aligned hpos c' (a.diff 0) a.diff hmerged hl0
    simp only [syncParseLog]
    generalize lastBatch (parseGroups ⟨e.d, e.pivot a.info, some 1⟩ ((e.d.offsetLogEnd/4096+7)/8)
      (0/4096) ⟨parseInit ⟨e.d, e.pivot a.info, some 1⟩ 0 c', a.diff 0, a.diff⟩).scan = s at *
    obtain ⟨b, hb⟩ := hd.end_aligned
    have hinside := hd.inside
    rw [if_pos ⟨hex, by omega⟩, hex]
    have hring : s.acc.tx.ring = c.tx.ring := by
      rw [htx, (parseInit_frame _ c').2.2, ← hc']
    -- the item's byte length keeps its low 32 bits only
    obtain ⟨ms, -, -, -, hms, -, -, hcov, -⟩ := msgMemLoop_sends e.d
      (s.acc.ro (e.d.h+offVersion)) true _ (e.d.h/64) (e.d.offsetLogEnd/64%2^26)
      s.acc.tx.lastSyncExtBytes 0
      { s.acc with tx := { s.acc.tx with taken := s.acc.tx.taken+32 } } rfl
    refine ⟨ms, ?_, hcov⟩
    rw [← hring, ← hms]
    simp only [syncProcessChanges, hl, processItems, processItem, msgMemGenerate, ↓reduceIte,
      List.isEmpty_nil, Bool.and_self]
    rw [show e.d.h/64*64%2^64 = 64*(e.d.h/64) from by omega,
      show e.d.offsetLogEnd/64%2^32*64%2^32 = 64*(e.d.offsetLogEnd/64%2^26) from by omega]

/-- What the single thread of a fully dirty area reports. -/
theorem updatedBy_full (d : AreaDesc) (hd : d.Wf) (hpos : 0 < d.offsetLogEnd) (m : NodeMem)
    (hlist : (m.lists 0).l = []) (hch : (m.lists 0).changed = 0)
    (hall : ∀ l, d.Has l → lineBit m.log l = true) :
    updatedBy d (m.parse d true 0 0 d.offsetLogEnd) 0 =
      ((((d.offsetLogEnd/64%2^32*64%2^32 : ℕ) : ℤ).bmod (2^32))%2^64).toNat := by
  have hset : ∀ l < d.offsetLogEnd/64, lineBit (merged (internalEnv d true)
      (fun u => m.log (data2log (addrData+d.h)+u)) m.diff) l = true := by
    intro l hl
    have hbase := lineBit_base hd m 0 d.offsetLogEnd (Nat.dvd_zero _) hd.end_aligned
      (by omega) hpos (d.h/64+l) (by omega)
    rw [show d.h/64+l-d.h/64 = l from by omega] at hbase
    rw [merged_internal, hbase]
    exact hall _ ⟨by omega, by omega⟩
  have hex : (internalEnv d true).external = false := rfl
  have hacc : (parseInit (internalEnv d true) 0
      { ro := m.ro, rw := m.rw, sl := m.lists 0 }).acc =
      { ro := m.ro, rw := m.rw, sl := m.lists 0 } := by
    simp only [parseInit, hex, Bool.false_eq_true, false_and, ↓reduceIte]
  obtain ⟨hl, -, hc, -, -⟩ := lastBatch_ones (internalEnv d true) (internalEnv_wf d true)
    d.offsetLogEnd hd.end_aligned hpos { ro := m.ro, rw := m.rw, sl := m.lists 0 }
    (fun u => m.log (data2log (addrData+d.h)+u)) m.diff hset (by rw [hacc]; exact hlist)
  rw [hacc] at hc
  simp only [hch] at hc
  have hsl : ((m.parse d true 0 0 d.offsetLogEnd).lists 0) = (lastBatch (parseGroups
      (internalEnv d true) ((d.offsetLogEnd/4096+7)/8) (0/4096) ⟨parseInit (internalEnv d true) 0
        { ro := m.ro, rw := m.rw, sl := m.lists 0 },
        fun u => m.log (data2log (addrData+d.h)+u), m.diff⟩).scan).acc.sl := by
    simp only [NodeMem.parse, Function.update_self, syncParseLog, hex, Bool.false_eq_true,
      false_and, ↓reduceIte]
  generalize lastBatch (parseGroups (internalEnv d true) ((d.offsetLogEnd/4096+7)/8) (0/4096)
    ⟨parseInit (internalEnv d true) 0 { ro := m.ro, rw := m.rw, sl := m.lists 0 },
      fun u => m.log (data2log (addrData+d.h)+u), m.diff⟩).scan = s at hl hc hsl
  simp only [updatedBy, hsl, syncProcessChanges, hl, processItems, processItem, Bool.false_eq_true,
    ↓reduceIte, hc, zero_add]

/-- An area behind the root descriptor. -/
def areaOf (n : ℕ) : AreaDesc := ⟨32768, n, false⟩

theorem areaOf_wf {n : ℕ} (hn : 32768 ∣ n) (hle : n ≤ 2^39) : (areaOf n).Wf :=
  ⟨⟨1, rfl⟩, by norm_num [areaOf], hn, by simp only [areaOf]; omega⟩

def emptyMem : NodeMem :=
  ⟨fun _ => 0, fun x => if x = 32768+72 then 1 else 0, fun _ => 0#64, fun _ _ => 0#64, fun _ => {}⟩

/-- A node whose owner has logged the whole area. -/
def dirtyNode (n : ℕ) : OwnerNode :=
  { mem := emptyMem.ops (areaOf n) [.log (0, n)]
    info := fun _ => {}, lastSyncExtUs := 0, sleeping := false, tx := {} }

/-- The call for a subscriber that has nothing yet. -/
def firstCall (n : ℕ) : ExtCall := ⟨areaOf n, true, true, 0, 10, 10, 10, false, [some 0]⟩

theorem dirty_log (n : ℕ) (hn : 32768 ∣ n) (hpos : 0 < n) (hle : n ≤ 2^39) :
    (∀ op ∈ [OwnerOp.log (0, n)], op.Valid (areaOf n)) ∧
    ∀ l, (areaOf n).Has l → lineBit (dirtyNode n).mem.log l = true := by
  have hvalid : ∀ op ∈ [OwnerOp.log (0, n)], op.Valid (areaOf n) := by
    intro op hop
    rw [List.mem_singleton.mp hop]
    exact ⟨hpos, by simp only [areaOf]; omega⟩
  refine ⟨hvalid, ?_⟩
  rintro l ⟨hlo, hhi⟩
  rw [dirtyNode, lineBit_ops (areaOf_wf hn hle) _ hvalid]
  refine Or.inr ⟨(0, n), by simp [logsOf], ?_⟩
  simp only [areaOf] at hlo hhi
  exact ⟨by simp only [areaOf]; omega, by simp only [areaOf]; omega⟩

/-- A whole area in the log counts as changes unless its size wraps to zero. -/
theorem full_hasChanges (n : ℕ) (hn : 32768 ∣ n) (hpos : 0 < n) (hle : n ≤ 2^39)
    (hbytes : ((((n/64%2^32*64%2^32 : ℕ) : ℤ).bmod (2^32))%2^64).toNat ≠ 0) (m : NodeMem)
    (hlist : (m.lists 0).l = []) (hchanged : (m.lists 0).changed = 0)
    (hdirty : ∀ l, (areaOf n).Has l → lineBit m.log l = true) :
    hasChanges (syncUpdated (areaOf n) true m [.parse 0 0 n, .process 0]) = true := by
  have hupd := updatedBy_full (areaOf n) (areaOf_wf hn hle) hpos m hlist hchanged hdirty
  have hne : updatedBy (areaOf n) (m.parse (areaOf n) true 0 0 n) 0 ≠ 0 := by
    intro h0
    exact hbytes (hupd.symm.trans h0)
  simp only [syncUpdated, hasChanges, List.getLastD_cons, List.getLastD_nil, Bool.or_eq_true,
    bne_iff_ne]
  exact Or.inl hne

theorem dirty_hasChanges (n : ℕ) (hn : 32768 ∣ n) (hpos : 0 < n) (hle : n ≤ 2^39)
    (hbytes : ((((n/64%2^32*64%2^32 : ℕ) : ℤ).bmod (2^32))%2^64).toNat ≠ 0) :
    hasChanges (syncUpdated (areaOf n) true (dirtyNode n).mem
      [.parse 0 0 n, .process 0]) = true := by
  obtain ⟨-, -, hlists, -⟩ := ops_frame (d := areaOf n) [.log (0, n)] emptyMem
  exact full_hasChanges n hn hpos hle hbytes _ (by rw [dirtyNode, hlists]; rfl)
    (by rw [dirtyNode, hlists]; rfl) (dirty_log n hn hpos hle).2

/-- One internal sync publishes the whole area as version 1. -/
theorem dirty_published (n : ℕ) (hn : 32768 ∣ n) (hpos : 0 < n) (hle : n ≤ 2^39)
    (hbytes : ((((n/64%2^32*64%2^32 : ℕ) : ℤ).bmod (2^32))%2^64).toNat ≠ 0) :
    ∃ s, (coverageSystem (areaOf n)).Reachable s ∧
      s.node = (dirtyNode n).internal (areaOf n) [.parse 0 0 n, .process 0] 5 ∧
      (firstCall n).passes s.node.logs = true ∧ (firstCall n).pivot s.node.logs.info = 1 ∧
      s.node.ctx.sl.l = [] ∧ (∀ l < n/64, lineBit (s.node.logs.diff 0) l = true) ∧
      ∀ l < n/64, l ∈ s.modified 1 := by
  have hd := areaOf_wf hn hle
  have hev : Completes (areaOf n) [.parse 0 0 n, .process 0] := completes_whole (areaOf n) hd hpos
  obtain ⟨hvalid, hdirty⟩ := dirty_log n hn hpos hle
  have hchanges := dirty_hasChanges n hn hpos hle hbytes
  have hversion : (dirtyNode n).mem.rw ((areaOf n).h+offVersion) = 1 :=
    ops_header (d := areaOf n) _ hvalid _ offVersion (by norm_num [offVersion, sizeofHeader])
  obtain ⟨m, hm⟩ : ∃ m, m = syncEvents (areaOf n) true (dirtyNode n).mem
      [.parse 0 0 n, .process 0] := ⟨_, rfl⟩
  obtain ⟨node, hnode⟩ : ∃ node,
      node = OwnerNode.publish (areaOf n) 5 { dirtyNode n with mem := m } := ⟨_, rfl⟩
  have hnext : CovState.next (areaOf n) ⟨dirtyNode n, fun _ => ∅⟩
      (.internal [.parse 0 0 n, .process 0] 5) =
      ⟨node, Function.update (fun _ => ∅) 1 (changedLines (areaOf n) (dirtyNode n).mem)⟩ := by
    simp only [CovState.next, OwnerNode.internal, hchanges, ↓reduceIte, hversion, hnode, hm]
  -- log the whole area, then one internal sync
  have hreach : (coverageSystem (areaOf n)).Reachable
      ⟨node, Function.update (fun _ => ∅) 1 (changedLines (areaOf n) (dirtyNode n).mem)⟩ := by
    rw [← hnext]
    have hinit : (coverageSystem (areaOf n)).Reachable
        ⟨{ dirtyNode n with mem := emptyMem }, fun _ => ∅⟩ :=
      .init ⟨fun _ => rfl, fun it hit => absurd hit List.not_mem_nil⟩
    have hfirst : (coverageSystem (areaOf n)).Reachable ⟨dirtyNode n, fun _ => ∅⟩ :=
      hinit.step (a := CovAct.update [.log (0, n)]) hvalid
    exact hfirst.step (a := CovAct.internal [.parse 0 0 n, .process 0] 5) hev
  have hv : m.rw ((areaOf n).h+offVersion) = 1 := by
    rw [hm, rw_events (areaOf n) true, hversion]
  have hinfo : node.logs.info = Function.update (fun _ => {}) 0
      { versionEnd := 1, endUs := 5 } := by
    rw [hnode]
    simp only [OwnerNode.logs, OwnerNode.publish, hv, dirtyNode]
  refine ⟨_, hreach, ?_, ?_, ?_, ?_, ?_, ?_⟩
  · rw [← hnext]
    rfl
  · have hrest : node.logs.lastSyncExtUs = 0 ∧ node.logs.sleeping = false := by
      rw [hnode]
      exact ⟨rfl, rfl⟩
    simp only [ExtCall.passes, hinfo, hrest, Function.update_self, firstCall]
    decide
  · simp only [hinfo]
    rfl
  · rw [hnode]
    simp only [OwnerNode.ctx, OwnerNode.publish, hm]
    exact ((lists_events (areaOf n) true 0 [.parse 0 0 n, .process 0]
      (fun p o k q hx => hev.flushed p 0 o k q hx) (dirtyNode n).mem).1 (by simp)).1
  · intro l hl
    have hbit := hev.diff_zero hd (dirtyNode n).mem l hl
    rw [hdirty _ ⟨by omega, by simp only [areaOf]; omega⟩, Bool.or_true, ← hm] at hbit
    rw [hnode]
    simp only [OwnerNode.logs, OwnerNode.publish, Function.update_self]
    rw [lineBit_markVersion, hbit, Bool.true_or]
  · intro l hl
    simp only [Function.update_self, changedLines, Set.mem_ofPred_eq]
    exact ⟨hl, Or.inl (hdirty _ ⟨by omega, by simp only [areaOf]; omega⟩)⟩

/-- An external sync of a fully modified area of 4 GiB and one alignment unit
loses lines: 32 bits of length count only the first 512 of its 2^26+512 lines. -/
theorem external_loses_lines :
    ∃ s, (coverageSystem (areaOf (2^32+32768))).Reachable s ∧
      (firstCall (2^32+32768)).passes s.node.logs = true ∧
      some 0 ∈ (firstCall (2^32+32768)).users ∧
      ∃ ms, (s.node.external (firstCall (2^32+32768))).tx.ring = s.node.tx.ring ++ ms ∧
        ∃ v, 0 < v ∧ ∃ l ∈ s.modified v, ¬Covers (ms.map MemMsg.run) (32768/64+l) := by
  obtain ⟨s, hreach, -, hpass, hpivot, hlist, hfull, hmod⟩ := dirty_published (2^32+32768)
    ⟨131073, rfl⟩ (by norm_num) (by norm_num) (by decide)
  obtain ⟨ms, hring, hcov⟩ := external_long_run (firstCall (2^32+32768))
    (areaOf_wf ⟨131073, rfl⟩ (by norm_num)) s.node.ctx s.node.logs rfl hlist hpass
    (by rw [hpivot]) (by norm_num [firstCall, areaOf])
    (fun l hl => ⟨0, by rw [hpivot]; norm_num, hfull l hl⟩)
  refine ⟨s, hreach, hpass, List.mem_cons_self, ms, hring, 1, by norm_num, 512,
    hmod 512 (by norm_num), ?_⟩
  rw [hcov]
  norm_num [firstCall, areaOf]

/-- The smallest area is sent to a new subscriber in full. -/
theorem diff_logs_cover_small :
    ∃ s, (coverageSystem (areaOf 32768)).Reachable s ∧ (firstCall 32768).Short s.node.logs ∧
      ∃ ms, (s.node.external (firstCall 32768)).tx.ring = s.node.tx.ring ++ ms ∧
        ∀ l < 512, Covers (ms.map MemMsg.run) (32768/64+l) := by
  obtain ⟨s, hreach, -, hpass, -, -, -, hmod⟩ := dirty_published 32768
    ⟨1, rfl⟩ (by norm_num) (by norm_num) (by decide)
  have hshort : (firstCall 32768).Short s.node.logs := by
    intro a ha
    simp only [firstCall, areaOf] at ha
    omega
  obtain ⟨-, -, hsends⟩ := diff_logs_cover (areaOf 32768) (areaOf_wf ⟨1, rfl⟩ (by norm_num)) s hreach
  obtain ⟨ms, hring, hcov⟩ := hsends (firstCall 32768) rfl hpass hshort 0 List.mem_cons_self
  exact ⟨s, hreach, hshort, ms, hring, fun l hl => hcov 1 (by norm_num) l (hmod l hl)⟩

end Tasvir
