import Mathlib.Tactic
import Tasvir.InternalParse

/-! Back-to-back calls of `tasvir_sync_parse_log` in an internal sync: each call
queues the maximal runs of its chunk, and no call writes behind the array of the
sync list. -/
namespace Tasvir
open BitStream RunLength

/-- A call `tasvir_sync_parse_log(d, offset, len, 0)` and the log bits it finds. -/
structure ParseCall where
  d : AreaDesc
  isLocal : Bool
  offset : ℕ
  len : ℕ
  log : Words
  diff : ℕ → Words
  h_aligned : 32768 ∣ d.h
  offset_aligned : 32768 ∣ offset
  len_aligned : 32768 ∣ len
  lines_lt : len/64 < 2^32

namespace ParseCall

def env (k : ParseCall) : ParseEnv := ⟨k.d, 0, if k.isLocal then some 0 else none⟩

def run (k : ParseCall) (c : SyncCtx) : ParseState × ℕ :=
  syncParseLog k.env k.offset k.len c k.log k.diff

/-- The log bits of the chunk, most significant bit of each unit first. -/
def bits (k : ParseCall) : List Bool := unitBits k.log (k.offset/4096) (k.len/4096)

/-- The first line of the chunk in the data region. -/
def firstLine (k : ParseCall) : ℕ := (k.d.h+k.offset)/64

theorem env_wf (k : ParseCall) : k.env.Wf := by
  apply Or.inl
  cases hk : k.isLocal <;> simp [env, hk]

end ParseCall

/-- The context after some calls, without `tasvir_sync_process_changes` in between. -/
def parseCalls (c : SyncCtx) (ks : List ParseCall) : SyncCtx :=
  ks.foldl (fun c k => (k.run c).1.scan.acc) c

section Bound

/-- The runs in the list and the held one. -/
def LogScan.runs (s : LogScan) : ℕ := s.acc.sl.l.length + if s.ones = 0 then 0 else 1

/-- A set bit would start a new run. -/
def LogScan.fresh (s : LogScan) : ℕ := if s.zeros = 0 ∧ s.ones ≠ 0 then 0 else 1

/-- A run takes two bits, a set one and a clear one in front of it. -/
theorem runs_read (B : ℕ) (bs : List Bool) (s : LogScan) (hm : s.acc.sl.maxIdx ≤ B)
    (hb : LogScan.runs s+(bs.length+LogScan.fresh s)/2 ≤ B+1) :
    LogScan.runs (s.read pushItem bs) ≤ LogScan.runs s+(bs.length+LogScan.fresh s)/2 ∧
      (s.read pushItem bs).acc.sl.maxIdx ≤ B := by
  induction bs generalizing s with
  | nil => exact ⟨Nat.le_add_right _ _, hm⟩
  | cons b bs ih =>
    rw [Scan.read_cons]
    rw [List.length_cons] at hb ⊢
    cases b with
    | false =>
      have hr : LogScan.runs (s.bit pushItem false) = LogScan.runs s := rfl
      have hf : LogScan.fresh (s.bit pushItem false) = 1 := by
        simp [LogScan.fresh, Scan.bit]
      obtain ⟨h1, h2⟩ := ih (s.bit pushItem false) hm (by omega)
      exact ⟨by omega, h2⟩
    | true =>
      have hf : LogScan.fresh (s.bit pushItem true) = 0 := by
        by_cases hz : s.zeros = 0 <;> simp [LogScan.fresh, Scan.bit, Scan.cut, hz]
      by_cases hz : s.zeros = 0
      · -- the held run grows, or the first run starts
        have hr : LogScan.runs (s.bit pushItem true) = s.acc.sl.l.length+1 := by
          simp [LogScan.runs, Scan.bit, hz]
        have hidx : (s.bit pushItem true).acc.sl.maxIdx = s.acc.sl.maxIdx := by
          simp [Scan.bit, hz]
        have hle : LogScan.runs (s.bit pushItem true) ≤ LogScan.runs s+LogScan.fresh s := by
          rw [hr]
          by_cases ho : s.ones = 0 <;> simp [LogScan.runs, LogScan.fresh, ho, hz]
        have hfresh : LogScan.fresh s ≤ 1 := by
          unfold LogScan.fresh
          split_ifs <;> omega
        obtain ⟨h1, h2⟩ := ih (s.bit pushItem true) (by omega) (by omega)
        exact ⟨by omega, h2⟩
      · -- the held run goes into the list and a new one starts
        have hfs : LogScan.fresh s = 1 := by simp [LogScan.fresh, hz]
        have hr : LogScan.runs (s.bit pushItem true) = LogScan.runs s+1 := by
          by_cases ho : s.ones = 0 <;>
            simp [LogScan.runs, Scan.bit, Scan.cut, hz, pushItem, ho]
        have hidx : (s.bit pushItem true).acc.sl.maxIdx =
            max s.acc.sl.maxIdx s.acc.sl.l.length := by
          simp [Scan.bit, Scan.cut, hz, pushItem]
        have hlen : s.acc.sl.l.length ≤ LogScan.runs s := Nat.le_add_right _ _
        obtain ⟨h1, h2⟩ := ih (s.bit pushItem true) (by omega) (by omega)
        exact ⟨by omega, h2⟩

/-- Between two groups of eight units: at most 256 runs, and no index beyond 511. -/
def LogScan.Bounded (s : LogScan) : Prop := LogScan.runs s ≤ 256 ∧ s.acc.sl.maxIdx ≤ 511

theorem fresh_le (s : LogScan) : LogScan.fresh s ≤ 1 := by
  unfold LogScan.fresh
  split_ifs <;> omega

/-- A flush empties the list and records no new index. -/
theorem syncProcessChanges_list (d : AreaDesc) (reset : Bool) (c : SyncCtx) :
    (syncProcessChanges d reset false c).1.sl.l = [] ∧
      (syncProcessChanges d reset false c).1.sl.maxIdx = c.sl.maxIdx := by
  have hp := processItems_internal d reset c.sl.l c
  constructor
  · rfl
  · simp only [syncProcessChanges, hp]

theorem parseGroup_bounded (e : ParseEnv) (hp : e.pivot = 0) (li : ℕ) (p : ParseState)
    (h : LogScan.Bounded p.scan) : LogScan.Bounded (parseGroup e li p).scan := by
  have hex : e.external = false := by simp [ParseEnv.external, hp]
  simp only [parseGroup]
  generalize (List.range' 1 (e.pivot-1)).foldl (mergeLog e li) (load8 p.log li, p.diff) = vd
  by_cases hz : testMask vd.1 = 0
  · rw [if_pos hz]
    exact h
  · rw [if_neg hz]
    have hunits := parseUnits_eq vd.1 8 p.scan 0 (by omega) (by omega)
    have hbits := length_unitBits vd.1 0 8
    have hfresh := fresh_le p.scan
    obtain ⟨h1, h2⟩ := runs_read 511 (unitBits vd.1 0 8) p.scan h.2 (by have := h.1; omega)
    simp only [Nat.sub_zero] at hunits
    dsimp only
    rw [hunits]
    generalize p.scan.read pushItem (unitBits vd.1 0 8) = s at h1 h2
    by_cases hfull : s.acc.sl.l.length ≥ 256
    · rw [if_pos hfull, hex]
      obtain ⟨h3, h4⟩ := syncProcessChanges_list e.d false s.acc
      constructor
      · simp only [LogScan.runs, h3, List.length_nil]
        split_ifs <;> omega
      · rw [h4]
        exact h2
    · rw [if_neg hfull]
      refine ⟨?_, h2⟩
      simp only [LogScan.runs]
      split_ifs <;> omega

theorem parseGroups_bounded (e : ParseEnv) (hp : e.pivot = 0) (n li : ℕ) (p : ParseState)
    (h : LogScan.Bounded p.scan) : LogScan.Bounded (parseGroups e n li p).scan := by
  induction n generalizing li p with
  | zero => exact h
  | succ n ih => exact ih (li+8) (parseGroup e li p) (parseGroup_bounded e hp li p h)

/-- A call that starts with at most 256 entries ends so. -/
theorem ParseCall.bounded (k : ParseCall) (c : SyncCtx) (hc : c.sl.l.length ≤ 256)
    (hm : c.sl.maxIdx ≤ 511) :
    (k.run c).1.scan.acc.sl.l.length ≤ 256 ∧ (k.run c).1.scan.acc.sl.maxIdx ≤ 511 := by
  have hex : k.env.external = false := rfl
  have hinit : LogScan.Bounded (parseInit k.env k.offset c) := by
    simp only [LogScan.Bounded, LogScan.runs, parseInit, hex, Bool.false_eq_true, false_and,
      ↓reduceIte]
    exact ⟨hc, hm⟩
  have hall := parseGroups_bounded k.env rfl ((k.len/4096+7)/8) (k.offset/4096)
    ⟨parseInit k.env k.offset c, k.log, k.diff⟩ hinit
  simp only [ParseCall.run, syncParseLog, hex, Bool.false_eq_true, false_and, ↓reduceIte]
  generalize (parseGroups k.env ((k.len/4096+7)/8) (k.offset/4096)
    ⟨parseInit k.env k.offset c, k.log, k.diff⟩).scan = s at hall
  obtain ⟨h1, h2⟩ := hall
  by_cases h0 : s.ones = 0
  · simp only [lastBatch, h0, ne_eq, not_true_eq_false, ↓reduceIte]
    simp only [LogScan.runs, h0, ↓reduceIte, Nat.add_zero] at h1
    exact ⟨h1, h2⟩
  · -- the held run is the last entry
    simp only [LogScan.runs, h0, ↓reduceIte] at h1
    simp only [lastBatch, h0, ne_eq, not_false_eq_true, ↓reduceIte, pushItem,
      List.length_append, List.length_singleton]
    exact ⟨h1, max_le h2 (by omega)⟩

theorem parseCalls_bounded (ks : List ParseCall) (c : SyncCtx) (hc : c.sl.l.length ≤ 256)
    (hm : c.sl.maxIdx ≤ 511) :
    (parseCalls c ks).sl.l.length ≤ 256 ∧ (parseCalls c ks).sl.maxIdx ≤ 511 := by
  induction ks generalizing c with
  | nil => exact ⟨hc, hm⟩
  | cons k ks ih =>
    obtain ⟨h1, h2⟩ := k.bounded c hc hm
    exact ih (k.run c).1.scan.acc h1 h2

end Bound

/-- What a call returns. -/
theorem ParseCall.returned (k : ParseCall) (c : SyncCtx) :
    (k.run c).2 = k.bits.count true*64 := by
  have hinit : Scan.Sim (fun _ _ => True) (parseInit k.env k.offset c) (Scan.init k.firstLine) :=
    ⟨trivial, rfl, rfl, rfl, rfl⟩
  obtain ⟨-, -, hs⟩ := parseGroups_spec k.env k.env_wf (fun _ _ _ _ h => h) (fun _ _ h => h)
    ((k.len/4096+7)/8) (k.offset/4096) ⟨parseInit k.env k.offset c, k.log, k.diff⟩ _ hinit
  obtain ⟨b, hb⟩ := k.len_aligned
  rw [show 8*((k.len/4096+7)/8) = k.len/4096 from by omega] at hs
  obtain ⟨-, htotal⟩ := lastBatch_sim (fun _ _ _ _ h => h) _ _ hs
  rw [Scan.total_read] at htotal
  simp only [Scan.init, Nat.zero_add] at htotal
  have hmerged : merged k.env k.log k.diff = k.log := rfl
  rw [hmerged] at htotal
  simp only [ParseCall.run, syncParseLog, show k.env.external = false from rfl,
    Bool.false_eq_true, false_and, ↓reduceIte, ParseCall.bits]
  rw [htotal]

/-- A run of a chunk has fewer than `2^32` lines. -/
theorem ParseCall.run_lt (k : ParseCall) {rs : List Run} (h : Maximal k.bits k.firstLine rs)
    {x : Run} (hx : x ∈ rs) : x.2 < 2^32 := by
  have hin := h.inside hx
  rw [ParseCall.bits, length_unitBits] at hin
  have := k.lines_lt
  omega

/-- Calls on aligned chunks, back to back and from an empty list on: the list has at most
256 entries when the next call starts, no write to it is at an index beyond 511, and that
call queues exactly the maximal runs of its chunk, some of them already copied by
flushes, returns the bytes they span, and leaves the chunk's log units zero. -/
theorem parse_runs_exact (ro rw : Mem) (ks : List ParseCall) (k : ParseCall) :
    let c := parseCalls { ro := ro, rw := rw } ks
    let r := k.run c
    c.sl.l.length ≤ 256 ∧ r.1.scan.acc.sl.maxIdx < syncListLen ∧
    (∃ rs flushed, Maximal k.bits k.firstLine rs ∧
      c.sl.l ++ rs.map (fun r => ⟨r.1, r.2⟩) = flushed ++ r.1.scan.acc.sl.l ∧
      r.1.scan.acc.ro = copyItems c.rw flushed c.ro) ∧
    r.2 = k.bits.count true*64 ∧
    ∀ u, r.1.log u = if k.offset/4096 ≤ u ∧ u < (k.offset+k.len)/4096 then 0#64 else k.log u := by
  intro c r
  obtain ⟨hc, hm⟩ := parseCalls_bounded ks { ro := ro, rw := rw } (Nat.zero_le _) (Nat.zero_le _)
  obtain ⟨-, hm'⟩ := k.bounded c hc hm
  obtain ⟨hlog, -, flushed, hl, hro, -⟩ := syncParseLog_internal k.env k.env_wf rfl k.offset k.len
    k.len_aligned c k.log k.diff
  obtain ⟨a, ha⟩ := k.offset_aligned
  obtain ⟨b, hb⟩ := k.len_aligned
  have hmax : Maximal k.bits k.firstLine (chunkRuns k.env k.offset k.len k.log k.diff).allRuns :=
    Scan.maximal_read k.firstLine k.bits
  refine ⟨hc, Nat.lt_succ_of_le hm', ⟨_, flushed, hmax, ?_, hro⟩, k.returned c, ?_⟩
  · -- a run of the chunk is short enough for the item
    rw [show r.1.scan.acc.sl.l = (syncParseLog k.env k.offset k.len c k.log k.diff).1.scan.acc.sl.l
      from rfl, ← hl]
    congr 1
    apply List.map_congr_left
    intro x hx
    rw [toItem, Nat.mod_eq_of_lt (k.run_lt hmax hx)]
  · intro u
    rw [show r.1.log = (syncParseLog k.env k.offset k.len c k.log k.diff).1.log from rfl, hlog,
      cleared]
    exact if_congr (by omega) rfl rfl

theorem chunk_aligned : 32768 ∣ 32768 := dvd_rfl

theorem chunk_lines : 32768/64 < 2^32 := by decide

theorem start_aligned : 32768 ∣ 0 := dvd_zero _

theorem chunk_start (i : ℕ) : 32768 ∣ i*32768 := Nat.dvd_mul_left _ _

/-- Chunk `i` of a local area, every other line logged. -/
def alternatingCall (i : ℕ) : ParseCall where
  d := ⟨0, 65536, false⟩
  isLocal := true
  offset := i*32768
  len := 32768
  log := fun _ => 0x5555555555555555
  diff := fun _ _ => 0
  h_aligned := start_aligned
  offset_aligned := chunk_start i
  len_aligned := chunk_aligned
  lines_lt := chunk_lines

/-- The first chunk fills the list to 256 entries, the second one starts from there: its runs
reach index 510 and the flush copies them, up to the last one. -/
theorem parse_runs_exact_alternating :
    let c := parseCalls { ro := fun _ => 0, rw := fun _ => 1 } [alternatingCall 0]
    let r := (alternatingCall 1).run c
    c.sl.l.length = 256 ∧ r.1.scan.acc.sl.maxIdx < syncListLen ∧ r.1.scan.acc.sl.l.length = 1 ∧
      (∃ flushed, 255 ≤ flushed.length ∧ r.1.scan.acc.ro = copyItems c.rw flushed c.ro) ∧
      r.2 = 256*64 ∧ r.1.log 8 = 0#64 := by
  have hc : (parseCalls { ro := fun _ => 0, rw := fun _ => 1 } [alternatingCall 0]).sl.l.length = 256 := by
    decide +kernel
  have hr : ((alternatingCall 1).run (parseCalls { ro := fun _ => 0, rw := fun _ => 1 }
      [alternatingCall 0])).1.scan.acc.sl.l.length = 1 := by decide +kernel
  have hcount : (alternatingCall 1).bits.count true = 256 := by decide +kernel
  have hflushed {l flushed rest : List SyncItem} {rs : List Run}
      (hl : l ++ rs.map (fun r => ⟨r.1, r.2⟩) = flushed ++ rest) (hc : l.length = 256)
      (hr : rest.length = 1) : 255 ≤ flushed.length := by
    have hlen := congrArg List.length hl
    rw [List.length_append, List.length_append, hc, hr] at hlen
    omega
  have hexact := parse_runs_exact (fun _ => 0) (fun _ => 1) [alternatingCall 0] (alternatingCall 1)
  refine ⟨hc, hexact.2.1, hr, ?_, hexact.2.2.2.1.trans (congrArg (·*64) hcount), ?_⟩
  · obtain ⟨rs, flushed, -, hl, hro⟩ := hexact.2.2.1
    exact ⟨flushed, hflushed hl hc hr, hro⟩
  · exact (hexact.2.2.2.2 8).trans (if_pos (by decide))

end Tasvir
