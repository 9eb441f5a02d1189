import Mathlib.Tactic
import Tasvir.ParseSpec

/-! The parser inside an internal sync: every run of a chunk is copied to the
RO copy or still waits in the thread's list, and nothing else is copied. -/
namespace Tasvir
open RunLength

def toItem (r : Run) : SyncItem := ⟨r.1, r.2%2^32⟩

/-- Items `rs` were added to the list of `c₀`; a prefix of the list has been
copied by flushes and the rest is still there. -/
def Queued (c₀ c : SyncCtx) (rs : List Run) : Prop :=
  ∃ done, c₀.sl.l ++ rs.map toItem = done ++ c.sl.l ∧
    c.ro = copyItems c₀.rw done c₀.ro ∧ c.rw = c₀.rw

theorem queued_refl (c : SyncCtx) : Queued c c [] := ⟨[], by simp, rfl, rfl⟩

theorem queued_push (c₀ c : SyncCtx) (rs : List Run) (s n : ℕ) (h : Queued c₀ c rs) :
    Queued c₀ (pushItem c s n) (Scan.pushRun rs s n) := by
  obtain ⟨done, hl, hro, hrw⟩ := h
  refine ⟨done, ?_, hro, hrw⟩
  by_cases hn : n = 0
  · simpa [Scan.pushRun, pushItem, hn] using hl
  · simp only [Scan.pushRun, pushItem, hn, ↓reduceIte, List.map_append, ← List.append_assoc, hl]
    rfl

theorem queued_flush (d : AreaDesc) (reset : Bool) (c₀ c : SyncCtx) (rs : List Run)
    (h : Queued c₀ c rs) : Queued c₀ (syncProcessChanges d reset false c).1 rs := by
  obtain ⟨done, hl, hro, hrw⟩ := h
  have hp := processItems_internal d reset c.sl.l c
  refine ⟨done ++ c.sl.l, ?_, ?_, ?_⟩
  · simpa only [syncProcessChanges, hp, List.append_nil] using hl
  · simp only [syncProcessChanges, hp, copyItems_append, hrw, hro]
  · simp only [syncProcessChanges, hp, hrw]

/-- What pushing an item and flushing keep is kept by a call on any chunk of an internal sync. -/
theorem syncParseLog_keeps (e : ParseEnv) (he : e.Wf) (hp : e.pivot = 0) (offset len : ℕ)
    (c : SyncCtx) (log : Words) (diff : ℕ → Words) {P : SyncCtx → Prop} (hc : P c)
    (hpush : ∀ c' s n, P c' → P (pushItem c' s n))
    (hflush : ∀ c', P c' → P (syncProcessChanges e.d false false c').1) :
    P (syncParseLog e offset len c log diff).1.scan.acc := by
  have hex : e.external = false := by simp [ParseEnv.external, hp]
  have hinit : Scan.Sim (fun c' _ => P c') (parseInit e offset c)
      (Scan.init ((e.d.h+offset)/64)) := by
    refine ⟨?_, rfl, rfl, rfl, rfl⟩
    simp only [parseInit, hex, Bool.false_eq_true, false_and, ↓reduceIte]
    exact hc
  obtain ⟨-, -, hs⟩ := parseGroups_spec e he (fun c' _ s n h => hpush c' s n h)
    (by rw [hex]; exact fun c' _ h => hflush c' h)
    ((len/4096+7)/8) (offset/4096) ⟨parseInit e offset c, log, diff⟩ _ hinit
  simp only [syncParseLog, hex, Bool.false_eq_true, false_and, ↓reduceIte]
  exact (lastBatch_sim (fun c' _ s n h => hpush c' s n h) _ _ hs).1

section Call
variable (e : ParseEnv) (he : e.Wf) (hp : e.pivot = 0) (offset len : ℕ) (hl : 32768 ∣ len)
variable (c : SyncCtx) (log : Words) (diff : ℕ → Words)

include he hp hl in
/-- What pushing an item and flushing keep, a whole call of an internal sync keeps. -/
theorem syncParseLog_sim {R : SyncCtx → List Run → Prop} (hnil : R c [])
    (hpush : ∀ c' rs s n, R c' rs → R (pushItem c' s n) (Scan.pushRun rs s n))
    (hflush : ∀ c' rs, R c' rs → R (syncProcessChanges e.d false false c').1 rs) :
    (syncParseLog e offset len c log diff).1.log =
      cleared log (offset/4096) (offset/4096+len/4096) ∧
    (syncParseLog e offset len c log diff).1.diff =
      absorbed e log diff (offset/4096) (offset/4096+len/4096) ∧
    R (syncParseLog e offset len c log diff).1.scan.acc
      (chunkRuns e offset len log diff).allRuns := by
  have hex : e.external = false := by simp [ParseEnv.external, hp]
  have hinit : Scan.Sim R (parseInit e offset c) (Scan.init ((e.d.h+offset)/64)) := by
    refine ⟨?_, rfl, rfl, rfl, rfl⟩
    simp only [parseInit, hex, Bool.false_eq_true, false_and, ↓reduceIte]
    exact hnil
  obtain ⟨hlog, hdiff, hs⟩ := parseGroups_spec e he hpush (by rw [hex]; exact hflush)
    ((len/4096+7)/8) (offset/4096) ⟨parseInit e offset c, log, diff⟩ _ hinit
  have hn : 8*((len/4096+7)/8) = len/4096 := by omega
  rw [hn] at hlog hdiff hs
  refine ⟨hlog, hdiff, ?_⟩
  simp only [syncParseLog, hex, Bool.false_eq_true, false_and, ↓reduceIte]
  exact (lastBatch_sim hpush _ _ hs).1

include he hp hl in
/-- The whole call, for an internal sync. -/
theorem syncParseLog_internal :
    (syncParseLog e offset len c log diff).1.log =
      cleared log (offset/4096) (offset/4096+len/4096) ∧
    (syncParseLog e offset len c log diff).1.diff =
      absorbed e log diff (offset/4096) (offset/4096+len/4096) ∧
    Queued c (syncParseLog e offset len c log diff).1.scan.acc
      (chunkRuns e offset len log diff).allRuns :=
  syncParseLog_sim e he hp offset len hl c log diff (queued_refl c) (queued_push c)
    (queued_flush e.d false c)

end Call

/-- A run of a chunk that is shorter than 4 GiB is representable. -/
theorem fits_chunkRuns (e : ParseEnv) (offset len : ℕ) (log : Words) (diff : ℕ → Words)
    (hh : 32768 ∣ e.d.h) (ho : 32768 ∣ offset) (hl : 32768 ∣ len)
    (hreg : e.d.h+offset+len ≤ 2^40) (r : Run)
    (hr : r ∈ (chunkRuns e offset len log diff).allRuns) (hlt : r.2 < 2^26) :
    (toItem r).Fits ∧ (toItem r).run = r := by
  have hpos : 0 < r.2 := Scan.pos_of_mem_allRuns (Scan.init ((e.d.h+offset)/64))
    (by simp [Scan.init]) _ r hr
  have hin (l : ℕ) (h1 : r.1 ≤ l) (h2 : l < r.1+r.2) := (covers_chunkRuns e offset len log diff
    hh ho hl l).mp ⟨r, hr, h1, h2⟩
  have hhi := hin (r.1+r.2-1) (by omega) (by omega)
  obtain ⟨a, ha⟩ := hh
  obtain ⟨b, hb⟩ := ho
  obtain ⟨c, hc⟩ := hl
  have hmod : r.2%2^32 = r.2 := Nat.mod_eq_of_lt (by omega)
  simp only [toItem, SyncItem.run, SyncItem.Fits, hmod, and_true]
  exact ⟨hpos, hlt, by omega⟩

theorem covers_map_toItem (rs : List Run) (h : ∀ r ∈ rs, r.2 < 2^32) (l : ℕ) :
    Covers ((rs.map toItem).map SyncItem.run) l ↔ Covers rs l := by
  have hid : (rs.map toItem).map SyncItem.run = rs := by
    rw [List.map_map]
    calc
      rs.map (SyncItem.run ∘ toItem) = rs.map id := by
        apply List.map_congr_left
        intro r hr
        have hr := Nat.mod_eq_of_lt (h r hr)
        simp only [Function.comp_apply, SyncItem.run, toItem, hr, id_eq]
      _ = rs := List.map_id rs
  rw [hid]

end Tasvir
