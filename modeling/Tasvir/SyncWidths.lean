import Mathlib.Tactic
import Tasvir.EmissionExact
import Tasvir.InternalSync

/-! The widths of the sync list: a run is stored as a 32-bit number of lines, scaled to
bytes in 32 bits, and the bytes are added up in an `int`. -/
namespace Tasvir
open BitStream RunLength

/-- A chunk that a thread takes from a job, and the log it finds there. -/
structure Chunk (d : AreaDesc) where
  offset : ℕ
  len : ℕ
  log : Words
  diff : ℕ → Words
  offset_aligned : 32768 ∣ offset
  len_aligned : 32768 ∣ len
  len_pos : 0 < len
  inside : offset+len ≤ d.offsetLogEnd

/-- What one thread takes in one job; the atomic add on `j->offset` hands the chunks out in
increasing order. -/
structure Share (d : AreaDesc) where
  chunks : List (Chunk d)
  sorted : chunks.Pairwise fun k k' => k.offset+k.len ≤ k'.offset

namespace Chunk
variable {d : AreaDesc}

/-- The log bits of the chunk, most significant bit of each unit first. -/
def bits (k : Chunk d) : List Bool := unitBits k.log (k.offset/4096) (k.len/4096)

/-- The first line of the chunk in the data region. -/
def firstLine (k : Chunk d) : ℕ := (d.h+k.offset)/64

/-- The runs that the parser finds in the chunk. -/
def runs (k : Chunk d) : List Run :=
  ((Scan.init k.firstLine).read Scan.pushRun k.bits).allRuns

def parse (isLocal : Bool) (c : SyncCtx) (k : Chunk d) : SyncCtx :=
  (syncParseLog (internalEnv d isLocal) k.offset k.len c k.log k.diff).1.scan.acc

theorem maximal (k : Chunk d) : Maximal k.bits k.firstLine k.runs :=
  Scan.maximal_read k.firstLine k.bits

theorem length_bits (k : Chunk d) : k.bits.length = k.len/64 := by
  obtain ⟨b, hb⟩ := k.len_aligned
  rw [bits, length_unitBits]
  omega

end Chunk

namespace Share
variable {d : AreaDesc}

/-- The loop of `tasvir_sync_internal_job` over the chunks, and the call of
`tasvir_sync_process_changes` that follows when the thread took any. -/
def job (isLocal : Bool) (c : SyncCtx) (s : Share d) : SyncCtx × ℕ :=
  if s.chunks = [] then (c, 0)
  else syncProcessChanges d true false (s.chunks.foldl (Chunk.parse isLocal) c)

def runs (s : Share d) : List Run := s.chunks.flatMap Chunk.runs

/-- Line `l` is set in the log of one of the chunks. -/
def Dirty (s : Share d) (l : ℕ) : Prop :=
  ∃ k ∈ s.chunks, k.firstLine ≤ l ∧ k.bits[l-k.firstLine]? = some true

/-- The bytes of the dirty lines. -/
def bytes (s : Share d) : ℕ := 64*(s.chunks.map fun k => k.bits.count true).sum

end Share

/-- Items `rs` were added to the list of `c₀`; a prefix of the list has been copied by
flushes, which added its bytes to `changed`, and the rest is still there. -/
def Tallied (c₀ c : SyncCtx) (rs : List Run) : Prop :=
  ∃ done, c₀.sl.l ++ rs.map toItem = done ++ c.sl.l ∧ c.ro = copyItems c₀.rw done c₀.ro ∧
    c.rw = c₀.rw ∧ c.sl.changed = tally c₀.sl.changed done

theorem tallied_refl (c : SyncCtx) : Tallied c c [] := ⟨[], by simp, rfl, rfl, rfl⟩

theorem tallied_push (c₀ c : SyncCtx) (rs : List Run) (s n : ℕ) (h : Tallied c₀ c rs) :
    Tallied c₀ (pushItem c s n) (Scan.pushRun rs s n) := by
  obtain ⟨done, hl, hro, hrw, hch⟩ := h
  refine ⟨done, ?_, hro, hrw, hch⟩
  by_cases hn : n = 0
  · simpa [Scan.pushRun, pushItem, hn] using hl
  · simp only [Scan.pushRun, pushItem, hn, ↓reduceIte, List.map_append, ← List.append_assoc, hl]
    rfl

theorem tally_append (ch : ℤ) (its jts : List SyncItem) :
    tally ch (its ++ jts) = tally (tally ch its) jts := List.foldl_append

theorem tallied_flush (d : AreaDesc) (c₀ c : SyncCtx) (rs : List Run) (h : Tallied c₀ c rs) :
    Tallied c₀ (syncProcessChanges d false false c).1 rs := by
  obtain ⟨done, hl, hro, hrw, hch⟩ := h
  have hp := processItems_internal d false c.sl.l c
  refine ⟨done ++ c.sl.l, ?_, ?_, ?_, ?_⟩
  · simpa only [syncProcessChanges, hp, List.append_nil] using hl
  · simp only [syncProcessChanges, hp, copyItems_append, hrw, hro]
  · simp only [syncProcessChanges, hp, hrw]
  · simp only [syncProcessChanges, hp, tally_append, hch, Bool.false_eq_true, ↓reduceIte]

theorem Tallied.trans {c₀ c₁ c₂ : SyncCtx} {rs ts : List Run} (h1 : Tallied c₀ c₁ rs)
    (h2 : Tallied c₁ c₂ ts) : Tallied c₀ c₂ (rs ++ ts) := by
  obtain ⟨done, hl, hro, hrw, hch⟩ := h1
  obtain ⟨done', hl', hro', hrw', hch'⟩ := h2
  refine ⟨done ++ done', ?_, ?_, hrw'.trans hrw, ?_⟩
  · rw [List.map_append, ← List.append_assoc, hl, List.append_assoc, hl', List.append_assoc]
  · rw [hro', hro, hrw, copyItems_append]
  · rw [hch', hch, tally_append]

section Share
variable {d : AreaDesc}

theorem Chunk.parse_tallied (isLocal : Bool) (c : SyncCtx) (k : Chunk d) :
    Tallied c (k.parse isLocal c) k.runs := by
  have he : (internalEnv d isLocal).Wf := by
    apply Or.inl
    cases isLocal <;> simp [internalEnv]
  exact (syncParseLog_sim (internalEnv d isLocal) he rfl k.offset k.len k.len_aligned c k.log k.diff
    (tallied_refl c) (tallied_push c) (tallied_flush d c)).2.2

theorem foldl_parse_tallied (isLocal : Bool) (c : SyncCtx) (ks : List (Chunk d)) :
    Tallied c (ks.foldl (Chunk.parse isLocal) c) (ks.flatMap Chunk.runs) := by
  induction ks generalizing c with
  | nil => exact tallied_refl c
  | cons k ks ih => exact (k.parse_tallied isLocal c).trans (ih (k.parse isLocal c))

/-- A thread's work on a job, from an empty list on: all items are copied and counted, and
the list is empty again. -/
theorem Share.job_eq (isLocal : Bool) (c : SyncCtx) (s : Share d) (hl : c.sl.l = [])
    (hch : c.sl.changed = 0) :
    (s.job isLocal c).1.ro = copyItems c.rw (s.runs.map toItem) c.ro ∧
    (s.job isLocal c).1.rw = c.rw ∧ (s.job isLocal c).1.sl.l = [] ∧
    (s.job isLocal c).1.sl.changed = 0 ∧
    (s.job isLocal c).2 = (tally 0 (s.runs.map toItem)%2^64).toNat := by
  unfold Share.job Share.runs
  by_cases hs : s.chunks = []
  · simp [hs, hl, hch, copyItems, tally]
  · rw [if_neg hs]
    obtain ⟨done, hd, hro, hrw, ht⟩ := foldl_parse_tallied isLocal c s.chunks
    rw [hl, List.nil_append] at hd
    generalize s.chunks.foldl (Chunk.parse isLocal) c = c' at *
    have hp := processItems_internal d true c'.sl.l c'
    simp only [syncProcessChanges, hp, hd, hro, hrw, ht, hch, copyItems_append, tally_append,
      ↓reduceIte, and_self]

/-- The runs of a share lie in the data region, and no two of them overlap. -/
theorem Share.runs_spec (hd : d.Wf) (s : Share d) :
    (∀ r ∈ s.runs, 0 < r.2 ∧ r.1+r.2 ≤ 2^34) ∧ s.runs.Pairwise fun r t => r.1+r.2 ≤ t.1 := by
  have hin := hd.inside
  obtain ⟨a, ha⟩ := hd.h_aligned
  have hbound (k : Chunk d) (r : Run) (hr : r ∈ k.runs) :
      0 < r.2 ∧ k.firstLine ≤ r.1 ∧ r.1+r.2 ≤ k.firstLine+k.len/64 := by
    have h := k.maximal.inside hr
    rw [k.length_bits] at h
    exact ⟨k.maximal.pos r hr, h⟩
  have hfirst (k : Chunk d) : 64*k.firstLine = d.h+k.offset ∧ 64*(k.len/64) = k.len := by
    obtain ⟨b, hb⟩ := k.offset_aligned
    obtain ⟨n, hn⟩ := k.len_aligned
    rw [Chunk.firstLine]
    omega
  constructor
  · intro r hr
    obtain ⟨k, -, hk⟩ := List.mem_flatMap.mp hr
    obtain ⟨h1, h2, h3⟩ := hbound k r hk
    have := hfirst k
    have := k.inside
    exact ⟨h1, by omega⟩
  · apply List.pairwise_flatMap.mpr
    constructor
    · intro k _
      exact k.maximal.sep.imp fun h => Nat.le_of_lt h
    · refine s.sorted.imp ?_
      intro k k' hkk r hr t ht
      obtain ⟨-, -, h3⟩ := hbound k r hr
      obtain ⟨-, h2, -⟩ := hbound k' t ht
      have := hfirst k
      have := hfirst k'
      omega

theorem Share.covers_runs (s : Share d) (l : ℕ) : Covers s.runs l ↔ s.Dirty l := by
  simp only [Covers, Share.runs, List.mem_flatMap, Share.Dirty]
  constructor
  · rintro ⟨r, ⟨k, hk, hr⟩, h⟩
    exact ⟨k, hk, (k.maximal.covers l).mp ⟨r, hr, h⟩⟩
  · rintro ⟨k, hk, h⟩
    obtain ⟨r, hr, h'⟩ := (k.maximal.covers l).mpr h
    exact ⟨r, ⟨k, hk, hr⟩, h'⟩

/-- What is copied for a run is a prefix of it, and all of it exactly below 4 GiB. -/
theorem copied_toItem (r : Run) (hpos : 0 < r.2) :
    (toItem r).copied.1 = r.1 ∧ (toItem r).copied.2 ≤ r.2 ∧
      ((toItem r).copied.2 = r.2 ↔ r.2 < 2^26) := by
  simp only [toItem, SyncItem.copied, true_and]
  omega

/-- `2^26` lines, 4 GiB, are nowhere set in a row. -/
def NoLongRun (bs : List Bool) : Prop :=
  ∀ i, i+2^26 ≤ bs.length → ∃ k < 2^26, bs[i+k]? = some false

/-- An internal sync copies the dirty lines of a thread's chunks and nothing else. -/
def Share.Transfers (isLocal : Bool) (s : Share d) : Prop :=
  ∀ ro rw x, (s.Dirty (x/64) → (s.job isLocal { ro := ro, rw := rw }).1.ro x = rw x) ∧
    (¬s.Dirty (x/64) → (s.job isLocal { ro := ro, rw := rw }).1.ro x = ro x)

theorem Share.noLongRun_iff (s : Share d) :
    (∀ k ∈ s.chunks, NoLongRun k.bits) ↔ ∀ r ∈ s.runs, r.2 < 2^26 := by
  have hk (k : Chunk d) : NoLongRun k.bits ↔ ∀ r ∈ k.runs, r.2 < 2^26 :=
    (k.maximal.short_iff (by norm_num)).symm
  simp only [Share.runs, List.mem_flatMap, hk]
  constructor
  · rintro h r ⟨k, hk, hr⟩
    exact h k hk r hr
  · intro h k hk r hr
    exact h r ⟨k, hk, hr⟩

theorem Share.transfers_of_short (hd : d.Wf) (isLocal : Bool) (s : Share d)
    (hs : ∀ r ∈ s.runs, r.2 < 2^26) : s.Transfers isLocal := by
  intro ro rw x
  obtain ⟨hpos, -⟩ := s.runs_spec hd
  obtain ⟨hro, -⟩ := s.job_eq isLocal { ro := ro, rw := rw } rfl rfl
  have hfits (it : SyncItem) (hit : it ∈ s.runs.map toItem) : it.Fits := by
    obtain ⟨r, hr, rfl⟩ := List.mem_map.mp hit
    obtain ⟨h1, h2⟩ := hpos r hr
    have h3 := hs r hr
    rw [toItem, Nat.mod_eq_of_lt (by omega)]
    exact ⟨h1, h3, h2⟩
  have hcov := covers_map_toItem s.runs (fun r hr => (hs r hr).trans (by norm_num)) (x/64)
  rw [hro, ← s.covers_runs, ← hcov]
  exact copyItems_apply rw (s.runs.map toItem) ro hfits x

/-- The last line of a run of 4 GiB or more stays behind. -/
theorem Share.short_of_transfers (hd : d.Wf) (isLocal : Bool) (s : Share d)
    (ht : s.Transfers isLocal) : ∀ r ∈ s.runs, r.2 < 2^26 := by
  intro r hr
  by_contra hge
  obtain ⟨hpos, hdis⟩ := s.runs_spec hd
  obtain ⟨hp, hreg⟩ := hpos r hr
  obtain ⟨hro, -⟩ := s.job_eq isLocal { ro := fun _ => 0, rw := fun _ => 1 } rfl rfl
  have hdirty : s.Dirty (64*(r.1+r.2-1)/64) :=
    (s.covers_runs _).mp ⟨r, hr, by omega, by omega⟩
  have hone := (ht (fun _ => 0) (fun _ => 1) (64*(r.1+r.2-1))).1 hdirty
  have hoff (it : SyncItem) (hit : it ∈ s.runs.map toItem) : it.offsetScaled < 2^58 := by
    obtain ⟨t, ht', rfl⟩ := List.mem_map.mp hit
    have := hpos t ht'
    simp only [toItem]
    omega
  have hzero := (copyItems_copied (fun _ => 1) (s.runs.map toItem) (fun _ => 0) hoff
    (64*(r.1+r.2-1))).2 ?_
  · rw [hro, hzero] at hone
    exact absurd hone (by norm_num)
  · rintro ⟨q, hq, h1, h2⟩
    rw [List.map_map] at hq
    obtain ⟨t, ht', rfl⟩ := List.mem_map.mp hq
    simp only [Function.comp_apply] at h1 h2
    obtain ⟨c1, c2, c3⟩ := copied_toItem t (hpos t ht').1
    by_cases hrt : r = t
    · subst hrt
      omega
    · have hsym : s.runs.Pairwise fun r t => r.1+r.2 ≤ t.1 ∨ t.1+t.2 ≤ r.1 := hdis.imp Or.inl
      have : Std.Symm fun r t : Run => r.1+r.2 ≤ t.1 ∨ t.1+t.2 ≤ r.1 :=
        ⟨fun _ _ hab => hab.symm⟩
      have := hsym.forall hr ht' hrt
      omega

end Share

section Emission
variable (d : AreaDesc) (pivot : ℕ) (diff : ℕ → Words)

/-- The merged log bits of an emission. -/
def emissionBits : List Bool :=
  unitBits (merged ⟨d, pivot, some 1⟩ (diff 0) diff) 0 (d.offsetLogEnd/4096)

/-- An external sync that starts with an empty list sends every line of the emission, and
the emission ends with a message marked last. -/
def EmitsAll : Prop :=
  ∀ c : SyncCtx, c.sl.l = [] → ∃ ms,
    (syncParseLog ⟨d, pivot, some 1⟩ 0 d.offsetLogEnd c (diff 0) diff).1.scan.acc.tx.ring =
      c.tx.ring ++ ms ∧
    ms.flatMap MemMsg.lineNos = emittedLines d pivot diff ∧
    (dueLines d pivot diff ≠ [] → Marked true ms)

theorem emission_noLongRun_iff : NoLongRun (emissionBits d pivot diff) ↔
    ∀ r ∈ (chunkRuns ⟨d, pivot, some 1⟩ 0 d.offsetLogEnd (diff 0) diff).allRuns, r.2 < 2^26 :=
  ((Scan.maximal_read ((d.h+0)/64) (emissionBits d pivot diff)).short_iff (by norm_num)).symm

variable {d pivot diff} (hd : d.Wf) (hp : 1 ≤ pivot) (hp4 : pivot ≤ 4)
include hd hp hp4

theorem emitsAll_of_short (hs : ∀ r ∈ (chunkRuns ⟨d, pivot, some 1⟩ 0 d.offsetLogEnd (diff 0)
    diff).allRuns, r.2 < 2^26) : EmitsAll d pivot diff := by
  intro c hc
  by_cases hdue : dueLines d pivot diff = []
  · have htx := emission_nothing d hd pivot hp hp4 c diff hdue
    refine ⟨[], ?_, ?_, fun h => absurd hdue h⟩
    · rw [htx, List.append_nil]
    · rw [emittedLines, if_pos hdue]
      rfl
  · obtain ⟨ms, hmark, -, hlines⟩ := emission_whole d hd pivot hp hp4 c hc diff hs hdue
    exact ⟨ms, hlines.ring, hlines.lines, fun _ => hmark⟩

/-- A run of 4 GiB or more leaves the node with fewer lines than it has. -/
theorem short_of_emitsAll (h : EmitsAll d pivot diff) : ∀ r ∈ (chunkRuns ⟨d, pivot, some 1⟩ 0
    d.offsetLogEnd (diff 0) diff).allRuns, r.2 < 2^26 := by
  intro r hr
  by_contra hge
  have hpositions := positions_chunkRuns d hd pivot hp diff
  have hdue : dueLines d pivot diff ≠ [] := by
    rw [← hpositions]
    apply List.ne_nil_of_mem (a := r.1)
    apply List.mem_flatMap.mpr
    exact ⟨r, hr, List.mem_range'_1.mpr ⟨le_rfl, by omega⟩⟩
  have hq := (dueLines_ne_nil d hd pivot hp hp4 { ro := fun _ => 0, rw := fun _ => 0 } diff).mpr hdue
  obtain ⟨ns, hlines⟩ := syncParseLog_lines ⟨d, pivot, some 1⟩ (Or.inr ⟨hp, hp4, rfl⟩) hp
    d.offsetLogEnd hd.end_aligned { ro := fun _ => 0, rw := fun _ => 0 } (diff 0) diff hq
    (emission_offsets d hd pivot { ro := fun _ => 0, rw := fun _ => 0 } rfl diff)
  obtain ⟨ms, hring, hall, -⟩ := h { ro := fun _ => 0, rw := fun _ => 0 } rfl
  obtain rfl : ms = ns := List.append_cancel_left (hring.symm.trans hlines.ring)
  -- count the lines
  have hlen := congrArg List.length (hlines.lines.symm.trans hall)
  rw [emittedLines, if_neg hdue, ← hpositions] at hlen
  have hroot : (positions ((rootItems d).map SyncItem.sent)).length =
      (if d.isRoot then [0, 1] else []).length := by
    rw [rootItems]
    split_ifs <;> rfl
  have hlt : (((chunkRuns ⟨d, pivot, some 1⟩ 0 d.offsetLogEnd (diff 0) diff).allRuns.map
      fun t => (toItem t).sent.2)).sum <
      ((chunkRuns ⟨d, pivot, some 1⟩ 0 d.offsetLogEnd (diff 0) diff).allRuns.map Prod.snd).sum := by
    apply List.sum_lt_sum
    · intro t _
      simp only [toItem, SyncItem.sent]
      omega
    · refine ⟨r, hr, ?_⟩
      simp only [toItem, SyncItem.sent]
      omega
  simp only [positions, List.nil_append, List.map_append, List.flatMap_append, List.length_append,
    List.length_flatMap, List.length_range', List.map_map] at hlen hroot
  rw [hroot] at hlen
  exact absurd (Nat.add_left_cancel hlen) (Nat.ne_of_lt hlt)

end Emission

/-- A run survives the conversion to bytes unless it reaches 4 GiB: an internal sync copies
exactly the dirty lines of a thread's chunks, and an external one sends exactly the lines
of its emission and ends it, when no `2^26` lines in a row are set. -/
theorem runs_transferred_iff (d : AreaDesc) (hd : d.Wf) :
    (∀ isLocal (s : Share d), s.Transfers isLocal ↔ ∀ k ∈ s.chunks, NoLongRun k.bits) ∧
    ∀ pivot diff, 1 ≤ pivot → pivot ≤ 4 →
      (EmitsAll d pivot diff ↔ NoLongRun (emissionBits d pivot diff)) := by
  constructor
  · intro isLocal s
    rw [s.noLongRun_iff]
    exact ⟨s.short_of_transfers hd isLocal, s.transfers_of_short hd isLocal⟩
  · intro pivot diff hp hp4
    rw [emission_noLongRun_iff]
    exact ⟨short_of_emitsAll hd hp hp4, emitsAll_of_short hd hp hp4⟩

/-- At an area of one alignment unit no run is that long. -/
theorem runs_transferred_small :
    let d : AreaDesc := ⟨32768, 32768, true⟩
    d.Wf ∧ EmitsAll d 1 fun _ _ => BitVec.allOnes 64 := by
  intro d
  have hd : d.Wf := ⟨⟨1, rfl⟩, by decide, ⟨1, rfl⟩, by decide⟩
  refine ⟨hd, ((runs_transferred_iff d hd).2 1 _ le_rfl (by decide)).mpr ?_⟩
  intro i hi
  rw [emissionBits, length_unitBits] at hi
  simp only [d] at hi
  omega

/-- An area of 32 GiB: with one thread, `job_bytes` is 4 GiB. -/
def hugeArea : AreaDesc := ⟨32768, 2^35, false⟩

theorem hugeArea_wf : hugeArea.Wf := ⟨⟨1, rfl⟩, by decide, ⟨2^20, rfl⟩, by decide⟩

/-- The lines of the first 4 GiB are dirty. -/
def hugeLog : Words := fun u => if u < 2^20 then BitVec.allOnes 64 else 0#64

/-- The first chunk of the area. -/
def hugeChunk : Chunk hugeArea :=
  ⟨0, 2^32, hugeLog, fun _ _ => 0#64, ⟨0, rfl⟩, ⟨2^17, rfl⟩, by decide, by decide⟩

def hugeShare : Share hugeArea := ⟨[hugeChunk], List.pairwise_singleton _ _⟩

theorem lineBit_hugeLog {l : ℕ} (hl : l < 2^26) : lineBit hugeLog l = true := by
  rw [lineBit, hugeLog, if_pos (by omega), BitVec.getMsbD_allOnes]
  simp
  omega

theorem not_noLongRun {v : Words} (hv : ∀ l < 2^26, lineBit v l = true) {n : ℕ}
    (hn : 2^20 ≤ n) : ¬NoLongRun (unitBits v 0 n) := by
  intro h
  obtain ⟨k, hk, hclear⟩ := h 0 (by rw [length_unitBits]; omega)
  rw [Nat.zero_add] at hclear
  have hset := (getElem?_unitBits v 0 n k).mpr ⟨by omega, by
    rw [Nat.zero_mul, Nat.zero_add]
    exact hv k hk⟩
  rw [hclear] at hset
  simp at hset

/-- A single run of 4 GiB: the internal sync does not copy it whole, and the external one
does not send it. -/
theorem huge_run_truncated :
    ¬(∀ d : AreaDesc, d.Wf → (∀ isLocal (s : Share d), s.Transfers isLocal) ∧
      ∀ pivot diff, 1 ≤ pivot → pivot ≤ 4 → EmitsAll d pivot diff) ∧
    ¬hugeShare.Transfers true ∧
    ¬EmitsAll hugeArea 1 fun p => if p = 0 then hugeLog else fun _ => 0#64 := by
  have hin : ¬hugeShare.Transfers true := by
    intro h
    have hno := hugeShare.noLongRun_iff.mpr (hugeShare.short_of_transfers hugeArea_wf true h)
    have hchunk := hno hugeChunk (List.mem_singleton.mpr rfl)
    rw [Chunk.bits, show hugeChunk.offset/4096 = 0 from rfl] at hchunk
    exact not_noLongRun (fun _ hl => lineBit_hugeLog hl) (by norm_num [hugeChunk]) hchunk
  have hex : ¬EmitsAll hugeArea 1 fun p => if p = 0 then hugeLog else fun _ => 0#64 := by
    intro h
    have hno := (emission_noLongRun_iff _ _ _).mpr (short_of_emitsAll hugeArea_wf le_rfl
      (by norm_num) h)
    rw [emissionBits] at hno
    refine not_noLongRun (fun l hl => ?_) (by norm_num [hugeArea]) hno
    rw [lineBit_merged ⟨hugeArea, 1, some 1⟩ le_rfl (fun p => if p = 0 then hugeLog else fun _ => 0#64)]
    exact ⟨0, by norm_num, lineBit_hugeLog hl⟩
  refine ⟨?_, hin, hex⟩
  intro h
  exact hin ((h hugeArea hugeArea_wf).1 true hugeShare)

section Count
variable {d : AreaDesc}

/-- The bytes of some items as `tasvir_sync_process_changes` scales them. -/
def itemBytes (its : List SyncItem) : ℕ := (its.map fun it => it.lenScaled*64%2^32).sum

/-- The accumulation in the `int` is exact modulo `2^32` only. -/
theorem tally_eq (its : List SyncItem) {ch : ℤ} (hch : ch.bmod (2^32) = ch) :
    tally ch its = (ch+itemBytes its).bmod (2^32) := by
  induction its generalizing ch with
  | nil => simpa [tally, itemBytes] using hch.symm
  | cons it its ih =>
    have hstep : tally ch (it :: its) =
        tally ((ch+(it.lenScaled*64%2^32 : ℕ)).bmod (2^32)) its := rfl
    rw [hstep, ih (Int.bmod_bmod), Int.bmod_add_bmod]
    congr 1
    simp only [itemBytes, List.map_cons, List.sum_cons]
    push_cast
    ring

/-- The runs of a share have as many lines as it has dirty ones. -/
theorem Share.sum_runs (s : Share d) : 64*(s.runs.map Prod.snd).sum = s.bytes := by
  have hk (k : Chunk d) : (k.runs.map Prod.snd).sum = k.bits.count true := by
    rw [Chunk.runs, Scan.sum_allRuns (Scan.init k.firstLine) rfl k.bits]
    simp [Scan.init]
  rw [Share.bytes, Share.runs, List.map_flatMap, List.flatMap, List.sum_flatten, List.map_map]
  simp only [Function.comp_def, hk]

/-- Together the chunks of a share are no longer than the area. -/
theorem Share.sum_len (s : Share d) : (s.chunks.map Chunk.len).sum ≤ d.offsetLogEnd := by
  have hgen (ks : List (Chunk d)) (lo : ℕ) (hlo : lo ≤ d.offsetLogEnd)
      (hks : ks.Pairwise fun k k' => k.offset+k.len ≤ k'.offset) (hge : ∀ k ∈ ks, lo ≤ k.offset) :
      lo+(ks.map Chunk.len).sum ≤ d.offsetLogEnd := by
    induction ks generalizing lo with
    | nil => simpa using hlo
    | cons k ks ih =>
      rw [List.pairwise_cons] at hks
      have h1 := hge k List.mem_cons_self
      have h2 := ih (k.offset+k.len) k.inside hks.2 hks.1
      rw [List.map_cons, List.sum_cons]
      omega
  simpa using hgen s.chunks 0 (Nat.zero_le _) s.sorted (fun _ _ => Nat.zero_le _)

theorem Share.bytes_le (s : Share d) : s.bytes ≤ d.offsetLogEnd := by
  calc
    s.bytes = (s.chunks.map fun k => 64*k.bits.count true).sum := by
      rw [Share.bytes, List.sum_map_mul_left]
    _ ≤ (s.chunks.map Chunk.len).sum := by
      apply List.sum_le_sum
      intro k _
      have h := k.bits.count_le_length (a := true)
      rw [k.length_bits] at h
      omega
    _ ≤ d.offsetLogEnd := s.sum_len

theorem Share.bytes_ne_zero (s : Share d) : s.bytes ≠ 0 ↔ ∃ l, s.Dirty l := by
  have hpos : s.bytes ≠ 0 ↔ ∃ k ∈ s.chunks, true ∈ k.bits := by
    rw [Share.bytes, Nat.mul_ne_zero_iff, ← Nat.pos_iff_ne_zero (n := List.sum _)]
    simp only [ne_eq, OfNat.ofNat_ne_zero, not_false_eq_true, true_and, Nat.pos_iff_ne_zero,
      List.sum_eq_zero_iff, List.mem_map, forall_exists_index, and_imp, forall_apply_eq_imp_iff₂,
      List.count_eq_zero]
    push Not
    rfl
  rw [hpos]
  constructor
  · rintro ⟨k, hk, hmem⟩
    obtain ⟨i, hi⟩ := List.mem_iff_getElem?.mp hmem
    refine ⟨k.firstLine+i, k, hk, Nat.le_add_right _ _, ?_⟩
    rwa [Nat.add_sub_cancel_left]
  · rintro ⟨l, k, hk, -, hbit⟩
    exact ⟨k, hk, List.mem_of_getElem? hbit⟩

/-- What the call returns, without a run of 4 GiB. -/
theorem Share.job_value (isLocal : Bool) (ro rw : Mem) (s : Share d)
    (hs : ∀ r ∈ s.runs, r.2 < 2^26) :
    (s.job isLocal { ro := ro, rw := rw }).2 = ((s.bytes : ℤ).bmod (2^32)%2^64).toNat := by
  obtain ⟨-, -, -, -, hv⟩ := s.job_eq isLocal { ro := ro, rw := rw } rfl rfl
  rw [hv, tally_eq _ (by decide), Int.zero_add]
  congr 3
  rw [← s.sum_runs, itemBytes, List.map_map, ← List.sum_map_mul_left]
  congr 2
  apply List.map_congr_left
  intro r hr
  have := hs r hr
  simp only [Function.comp_apply, toItem]
  omega

/-- The value returned to the job tells how many bytes the thread copied. -/
def Share.Counts (isLocal : Bool) (s : Share d) : Prop :=
  ∀ ro rw, (s.job isLocal { ro := ro, rw := rw }).2 = s.bytes ∧
    ((s.job isLocal { ro := ro, rw := rw }).2 ≠ 0 ↔ ∃ l, s.Dirty l)

end Count

/-- The change count is right exactly while a thread copies less than 2 GiB in one job. -/
theorem share_counts_iff (d : AreaDesc) (hd : d.Wf) (isLocal : Bool) (s : Share d)
    (hs : ∀ k ∈ s.chunks, NoLongRun k.bits) : s.Counts isLocal ↔ s.bytes < 2^31 := by
  have hv (ro rw : Mem) := s.job_value isLocal ro rw (s.noLongRun_iff.mp hs)
  have hle := s.bytes_le
  have hin := hd.inside
  constructor
  · intro h
    by_contra hge
    have heq := (h (fun _ => 0) (fun _ => 0)).1
    rw [hv, Int.bmod_def] at heq
    split_ifs at heq <;> omega
  · intro hlt ro rw
    have heq : (s.job isLocal { ro := ro, rw := rw }).2 = s.bytes := by
      rw [hv, Int.bmod_def]
      split_ifs <;> omega
    exact ⟨heq, by rw [heq]; exact s.bytes_ne_zero⟩

/-- One dirty unit of 64 lines. -/
theorem share_counts_unit :
    let d : AreaDesc := ⟨32768, 32768, false⟩
    let k : Chunk d := ⟨0, 32768, fun u => if u = 0 then BitVec.allOnes 64 else 0#64,
      fun _ _ => 0#64, ⟨0, rfl⟩, ⟨1, rfl⟩, by decide, le_rfl⟩
    let s : Share d := ⟨[k], List.pairwise_singleton _ _⟩
    d.Wf ∧ s.bytes = 4096 ∧ s.Counts true := by
  intro d k s
  have hd : d.Wf := ⟨⟨1, rfl⟩, by decide, ⟨1, rfl⟩, by decide⟩
  have hb : s.bytes = 4096 := by decide +kernel
  refine ⟨hd, hb, (share_counts_iff d hd true s ?_).mpr (by omega)⟩
  intro k' hk' i hi
  rw [k'.length_bits] at hi
  have := k'.inside
  have : d.offsetLogEnd = 32768 := rfl
  omega

theorem Share.bytes_pair {d : AreaDesc} (k k' : Chunk d)
    (h : [k, k'].Pairwise fun k k' => k.offset+k.len ≤ k'.offset) :
    (⟨[k, k'], h⟩ : Share d).bytes = 64*(k.bits.count true+k'.bits.count true) := by
  simp [Share.bytes]

/-- The chunks of 2 GiB at 0 and at 2 GiB, all lines dirty. -/
def dirtyChunk (i : ℕ) (hi : i < 2) : Chunk hugeArea :=
  ⟨2^31*i, 2^31, hugeLog, fun _ _ => 0#64, ⟨2^16*i, by omega⟩, ⟨2^16, rfl⟩, by decide, by
    simp only [hugeArea]
    omega⟩

def wrapShare : Share hugeArea :=
  ⟨[dirtyChunk 0 (by norm_num), dirtyChunk 1 (by norm_num)],
    List.pairwise_pair.mpr (by simp [dirtyChunk])⟩

theorem count_hugeLog (i n : ℕ) (h : i+n ≤ 2^20) :
    (unitBits hugeLog i n).count true = n*64 := by
  rw [← length_unitBits hugeLog i n, List.count_eq_length]
  intro b hb
  obtain ⟨j, hj⟩ := List.mem_iff_getElem?.mp hb
  obtain ⟨hlt, -⟩ := List.getElem?_eq_some_iff.mp hj
  rw [length_unitBits] at hlt
  have hset := (getElem?_unitBits hugeLog i n j).mpr ⟨hlt, lineBit_hugeLog (by omega)⟩
  exact Option.some.inj (hset.symm.trans hj)

/-- With two threads `job_bytes` is 2 GiB, and the thread that takes the two dirty chunks
copies 4 GiB and reports nothing. -/
theorem change_count_wraps :
    ¬(∀ d : AreaDesc, d.Wf → ∀ isLocal (s : Share d), (∀ k ∈ s.chunks, NoLongRun k.bits) →
      s.Counts isLocal) ∧
    wrapShare.bytes = 2^32 ∧
    ∀ ro rw, (wrapShare.job true { ro := ro, rw := rw }).2 = 0 := by
  have hcount (i : ℕ) (hi : i < 2) : (dirtyChunk i hi).bits.count true = 2^25 := by
    have hoff : (dirtyChunk i hi).offset = 2^31*i := rfl
    have hlen : (dirtyChunk i hi).len = 2^31 := rfl
    rw [Chunk.bits, show (dirtyChunk i hi).log = hugeLog from rfl, hoff, hlen,
      count_hugeLog _ _ (by omega)]
    norm_num
  have hb : wrapShare.bytes = 2^32 := by
    rw [wrapShare, Share.bytes_pair, hcount, hcount]
    norm_num
  have hshort : ∀ k ∈ wrapShare.chunks, NoLongRun k.bits := by
    intro k hk i hi
    rw [k.length_bits] at hi
    have hlen : k.len = 2^31 := by
      simp only [wrapShare, List.mem_cons, List.not_mem_nil, or_false] at hk
      rcases hk with hk | hk <;> rw [hk, dirtyChunk]
    omega
  have hv (ro rw : Mem) : (wrapShare.job true { ro := ro, rw := rw }).2 = 0 := by
    rw [wrapShare.job_value true ro rw (wrapShare.noLongRun_iff.mp hshort), hb]
    norm_num [Int.bmod_def]
  refine ⟨?_, hb, hv⟩
  intro h
  have heq := (h hugeArea hugeArea_wf true wrapShare hshort (fun _ => 0) (fun _ => 0)).1
  rw [hv, hb] at heq
  norm_num at heq

end Tasvir
