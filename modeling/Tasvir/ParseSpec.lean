import Mathlib.Tactic
import Tasvir.ParseUnits

/-! What one call of `tasvir_sync_parse_log` does: it reads the merged log as
one bit stream, clears the parsed log and adds it to the internal one. Early
flushes are invisible to every relation that flushing preserves. -/
namespace Tasvir
open BitStream RunLength

/-- The two ways the parser is called: internal syncs pass pivot 0 and, for a
local area, collect into diff log 0; external syncs collect into diff log 1. -/
def ParseEnv.Wf (e : ParseEnv) : Prop :=
  (e.pivot = 0 ∧ (e.logInternal = none ∨ e.logInternal = some 0)) ∨
  (1 ≤ e.pivot ∧ e.pivot ≤ 4 ∧ e.logInternal = some 1)

/-- The log as the parser reads it: the parsed log with older diff logs. -/
def merged (e : ParseEnv) (log : Words) (diff : ℕ → Words) : Words :=
  fun u => (List.range' 1 (e.pivot-1)).foldl (fun w p => w ||| diff p u) (log u)

def cleared (log : Words) (lo hi : ℕ) : Words :=
  fun u => if lo ≤ u ∧ u < hi then 0#64 else log u

/-- The diff logs after units `lo..hi` were added to the internal log. -/
def absorbed (e : ParseEnv) (log : Words) (diff : ℕ → Words) (lo hi : ℕ) : ℕ → Words :=
  match e.logInternal with
  | none => diff
  | some k => Function.update diff k fun u =>
      if lo ≤ u ∧ u < hi then diff k u ||| log u else diff k u

theorem or_left_zero {a b : Word} (h : a ||| b = 0#64) : a = 0#64 := by
  apply BitVec.eq_of_getMsbD_eq
  intro i _
  have hi := congrArg (fun w : Word => w.getMsbD i) h
  simp only [BitVec.getMsbD_or, BitVec.getMsbD_zero, Bool.or_eq_false_iff] at hi
  simpa using hi.1

theorem foldl_or_zero (ps : List ℕ) (f : ℕ → Word) (a : Word)
    (h : ps.foldl (fun w p => w ||| f p) a = 0#64) : a = 0#64 := by
  induction ps generalizing a with
  | nil => exact h
  | cons p ps ih => exact or_left_zero (ih _ h)

/-- The merge loop reads every selected diff log before any store to it. -/
theorem mergeLog_fold (e : ParseEnv) (he : e.Wf) (li : ℕ) (log : Words) (diff : ℕ → Words) :
    ((List.range' 1 (e.pivot-1)).foldl (mergeLog e li) (load8 log li, diff)).1 =
      load8 (merged e log diff) li ∧
    ((List.range' 1 (e.pivot-1)).foldl (mergeLog e li) (load8 log li, diff)).2 =
      if 2 ≤ e.pivot then absorbed e log diff li (li+8) else diff := by
  rcases he with ⟨hp, _⟩ | ⟨h1, h4, hk⟩
  · have hm : merged e log diff = log := by
      funext u
      simp [merged, hp]
    simp [hp, hm]
  · have hst (v : Words) (hv : ∀ i, v i = log (li+i) ||| diff 1 (li+i)) :
        Function.update diff 1 (store8 (diff 1) li v) = absorbed e log diff li (li+8) := by
      simp only [absorbed, hk]
      congr 1
      funext u
      simp only [store8]
      by_cases hu : li ≤ u ∧ u < li+8
      · rw [if_pos hu, if_pos hu, hv, show li+(u-li) = u from by omega, BitVec.or_comm]
      · rw [if_neg hu, if_neg hu]
    rcases e with ⟨d, pivot, k⟩
    simp only at hk h1 h4
    subst hk
    constructor
    · funext i
      interval_cases pivot <;>
        simp [List.range', mergeLog, merged, load8]
    · interval_cases pivot
      · simp
      all_goals
        simp only [List.range', mergeLog, List.foldl_cons, List.foldl_nil, ↓reduceIte,
          OfNat.ofNat_ne_one, Nat.reduceLeDiff, Nat.reduceSub, Nat.reduceAdd, le_refl]
        exact hst _ (fun i => by simp [load8])

theorem parseGroup_log (e : ParseEnv) (he : e.Wf) (li : ℕ) (p : ParseState) :
    (parseGroup e li p).log = cleared p.log li (li+8) := by
  obtain ⟨hv, _⟩ := mergeLog_fold e he li p.log p.diff
  simp only [parseGroup, hv]
  by_cases hz : testMask (load8 (merged e p.log p.diff) li) = 0
  · -- a group that reads as zero is already clear
    rw [if_pos hz]
    funext u
    by_cases hu : li ≤ u ∧ u < li+8
    · have h := (testMask_eq_zero _).mp hz (u-li) (by omega)
      rw [load8, show li+(u-li) = u from by omega] at h
      simp only [cleared, hu, and_self, ↓reduceIte]
      exact foldl_or_zero _ _ _ h
    · simp only [cleared, hu, ↓reduceIte]
  · rw [if_neg hz]
    rfl

theorem parseGroup_diff (e : ParseEnv) (he : e.Wf) (li : ℕ) (p : ParseState) :
    (parseGroup e li p).diff = absorbed e p.log p.diff li (li+8) := by
  obtain ⟨hv, hd⟩ := mergeLog_fold e he li p.log p.diff
  simp only [parseGroup, hv, hd]
  have hzero (hz : testMask (load8 (merged e p.log p.diff) li) = 0) (u : ℕ)
      (hu : li ≤ u ∧ u < li+8) : p.log u = 0#64 := by
    have h := (testMask_eq_zero _).mp hz (u-li) (by omega)
    rw [load8, show li+(u-li) = u from by omega] at h
    exact foldl_or_zero _ _ _ h
  -- without merged logs only groups with a set bit are written back
  by_cases h2 : 2 ≤ e.pivot
  · simp only [h2, ↓reduceIte, show ¬e.pivot < 2 from by omega]
    by_cases hz : testMask (load8 (merged e p.log p.diff) li) = 0
    · rw [if_pos hz]
    · rw [if_neg hz]
      cases e.logInternal <;> rfl
  · have hm : merged e p.log p.diff = p.log := by
      funext u
      simp [merged, show e.pivot-1 = 0 from by omega]
    simp only [h2, ↓reduceIte, show e.pivot < 2 from by omega]
    by_cases hz : testMask (load8 (merged e p.log p.diff) li) = 0
    · rw [if_pos hz]
      simp only [absorbed]
      cases hk : e.logInternal with
      | none => rfl
      | some k =>
        symm
        rw [Function.update_eq_iff]
        refine ⟨?_, fun _ _ => rfl⟩
        funext u
        by_cases hu : li ≤ u ∧ u < li+8
        · rw [if_pos hu, hzero hz u hu, BitVec.or_zero]
        · rw [if_neg hu]
    · rw [if_neg hz]
      simp only [absorbed, hm]
      cases hk : e.logInternal with
      | none => rfl
      | some k =>
        simp only
        congr 1
        funext u
        simp only [store8, load8]
        by_cases hu : li ≤ u ∧ u < li+8
        · rw [if_pos hu, if_pos hu, show li+(u-li) = u from by omega, BitVec.or_comm]
        · rw [if_neg hu, if_neg hu]

section
variable {R : SyncCtx → List Run → Prop}

theorem unitBits_load8 (v : Words) (li : ℕ) : unitBits (load8 v li) 0 8 = unitBits v li 8 := by
  simp only [unitBits, load8]
  rw [List.range'_eq_map_range, List.range'_eq_map_range, List.flatMap_map, List.flatMap_map]
  simp

/-- A group moves the scanner over its 512 bits, with at most one flush. -/
theorem parseGroup_sim (e : ParseEnv) (he : e.Wf) (li : ℕ) (p : ParseState)
    (hpush : ∀ c rs s n, R c rs → R (pushItem c s n) (Scan.pushRun rs s n))
    (hflush : ∀ c rs, R c rs → R (syncProcessChanges e.d false e.external c).1 rs)
    (t : Scan (List Run)) (h : Scan.Sim R p.scan t) :
    Scan.Sim R (parseGroup e li p).scan
      (t.read Scan.pushRun (unitBits (merged e p.log p.diff) li 8)) := by
  obtain ⟨hv, _⟩ := mergeLog_fold e he li p.log p.diff
  have hread := h.read hpush (unitBits (load8 (merged e p.log p.diff) li) 0 8)
  rw [unitBits_load8] at hread
  have hunits := parseUnits_eq (load8 (merged e p.log p.diff) li) 8 p.scan 0 (by omega) (by omega)
  rw [unitBits_load8] at hunits
  simp only [parseGroup, hv]
  by_cases hz : testMask (load8 (merged e p.log p.diff) li) = 0
  · rw [if_pos hz]
    have hzeros := unitBits_zeros (load8 (merged e p.log p.diff) li) 0 8
      (by simpa only [Nat.zero_add] using (testMask_eq_zero _).mp hz)
    rw [unitBits_load8] at hzeros
    rw [hzeros, Scan.read_zeros, Scan.read_zeros] at hread
    rw [hzeros, Scan.read_zeros]
    exact hread
  · rw [if_neg hz, hunits]
    dsimp only
    generalize unitBits (merged e p.log p.diff) li 8 = bs at hread
    by_cases hfull : (p.scan.read pushItem bs).acc.sl.l.length ≥ 256
    · rw [if_pos hfull]
      exact ⟨hflush _ _ hread.acc, hread.start, hread.ones, hread.zeros, hread.total⟩
    · rw [if_neg hfull]
      exact hread

theorem unitBits_congr (v w : Words) (i n : ℕ) (h : ∀ u, i ≤ u → u < i+n → v u = w u) :
    unitBits v i n = unitBits w i n := by
  induction n generalizing i with
  | zero => rfl
  | succ n ih =>
    rw [unitBits_succ, unitBits_succ, h i le_rfl (by omega),
      ih (i+1) (fun u h1 h2 => h u (by omega) (by omega))]

theorem cleared_cleared (log : Words) (a b c : ℕ) (hab : a ≤ b) (hbc : b ≤ c) :
    cleared (cleared log a b) b c = cleared log a c := by
  funext u
  simp only [cleared]
  by_cases h1 : b ≤ u ∧ u < c
  · rw [if_pos h1, if_pos (by omega)]
  · rw [if_neg h1]
    exact if_congr (by omega) rfl rfl

theorem absorbed_absorbed (e : ParseEnv) (log : Words) (diff : ℕ → Words) (a b c : ℕ)
    (hab : a ≤ b) (hbc : b ≤ c) :
    absorbed e (cleared log a b) (absorbed e log diff a b) b c = absorbed e log diff a c := by
  simp only [absorbed]
  cases e.logInternal with
  | none => rfl
  | some k =>
    simp only [Function.update_idem, Function.update_self]
    congr 1
    funext u
    simp only [cleared]
    by_cases h1 : b ≤ u ∧ u < c
    · rw [if_pos h1, if_neg (show ¬(a ≤ u ∧ u < b) from by omega),
        if_neg (show ¬(a ≤ u ∧ u < b) from by omega), if_pos (by omega)]
    · rw [if_neg h1]
      exact if_congr (by omega) rfl rfl

/-- Clearing earlier units does not change what later units read as. -/
theorem merged_after (e : ParseEnv) (log : Words) (diff : ℕ → Words) (a b u : ℕ) (hu : b ≤ u) :
    merged e (cleared log a b) (absorbed e log diff a b) u = merged e log diff u := by
  have hd (q : ℕ) : absorbed e log diff a b q u = diff q u := by
    simp only [absorbed]
    cases e.logInternal with
    | none => rfl
    | some k =>
      by_cases hq : q = k
      · subst hq
        simp only [Function.update_self]
        rw [if_neg (by omega)]
      · simp only [Function.update_of_ne hq]
  simp only [merged, hd, cleared, if_neg (show ¬(a ≤ u ∧ u < b) from by omega)]

/-- The loop over all groups of a chunk. -/
theorem parseGroups_spec (e : ParseEnv) (he : e.Wf)
    (hpush : ∀ c rs s n, R c rs → R (pushItem c s n) (Scan.pushRun rs s n))
    (hflush : ∀ c rs, R c rs → R (syncProcessChanges e.d false e.external c).1 rs)
    (n li : ℕ) (p : ParseState) (t : Scan (List Run)) (h : Scan.Sim R p.scan t) :
    (parseGroups e n li p).log = cleared p.log li (li+8*n) ∧
    (parseGroups e n li p).diff = absorbed e p.log p.diff li (li+8*n) ∧
    Scan.Sim R (parseGroups e n li p).scan
      (t.read Scan.pushRun (unitBits (merged e p.log p.diff) li (8*n))) := by
  induction n generalizing li p t with
  | zero =>
    have hno (u : ℕ) : ¬(li ≤ u ∧ u < li+8*0) := by omega
    refine ⟨?_, ?_, h⟩
    · funext u
      rw [cleared, if_neg (hno u)]
      rfl
    · simp only [absorbed, parseGroups]
      cases e.logInternal with
      | none => rfl
      | some k =>
        symm
        rw [Function.update_eq_iff]
        exact ⟨funext fun u => if_neg (hno u), fun _ _ => rfl⟩
  | succ n ih =>
    obtain ⟨hl, hd, hs⟩ := ih (li+8) (parseGroup e li p) _ (parseGroup_sim e he li p hpush hflush t h)
    simp only [parseGroup_log e he, parseGroup_diff e he] at hl hd hs
    rw [show li+8+8*n = li+8*(n+1) from by omega] at hl hd
    refine ⟨?_, ?_, ?_⟩
    · rw [parseGroups, hl, cleared_cleared _ _ _ _ (by omega) (by omega)]
    · rw [parseGroups, hd, absorbed_absorbed _ _ _ _ _ _ (by omega) (by omega)]
    · rw [parseGroups, show 8*(n+1) = 8+8*n from by omega, unitBits_add, Scan.read_append]
      rw [unitBits_congr _ (merged e p.log p.diff) (li+8) (8*n)
        (fun u h1 _ => merged_after e _ _ _ _ u h1)] at hs
      exact hs

/-- The last batch completes the runs. -/
theorem lastBatch_sim (hpush : ∀ c rs s n, R c rs → R (pushItem c s n) (Scan.pushRun rs s n))
    (s : LogScan) (t : Scan (List Run)) (h : Scan.Sim R s t) :
    R (lastBatch s).acc t.allRuns ∧ (lastBatch s).total = t.total+t.ones := by
  by_cases h0 : s.ones = 0
  · have h0' : t.ones = 0 := h.ones.symm.trans h0
    simp only [lastBatch, h0, ne_eq, not_true_eq_false, ↓reduceIte, h0', Scan.allRuns,
      Scan.pushRun, Nat.add_zero]
    exact ⟨h.acc, h.total⟩
  · simp only [lastBatch, h0, ne_eq, not_false_eq_true, ↓reduceIte]
    refine ⟨?_, by rw [h.total, h.ones]⟩
    rw [h.start, h.ones]
    exact hpush _ _ _ _ h.acc

end

/-- The runs of set bits of a chunk. -/
def chunkRuns (e : ParseEnv) (offset len : ℕ) (log : Words) (diff : ℕ → Words) : Scan (List Run) :=
  (Scan.init ((e.d.h+offset)/64)).read Scan.pushRun
    (unitBits (merged e log diff) (offset/4096) (len/4096))

/-- The runs cover exactly the lines of the chunk whose merged bit is set. -/
theorem covers_chunkRuns (e : ParseEnv) (offset len : ℕ) (log : Words) (diff : ℕ → Words)
    (hh : 32768 ∣ e.d.h) (ho : 32768 ∣ offset) (hl : 32768 ∣ len) (l : ℕ) :
    Covers (chunkRuns e offset len log diff).allRuns l ↔
      e.d.h/64+offset/64 ≤ l ∧ l < e.d.h/64+(offset+len)/64 ∧
        lineBit (merged e log diff) (l-e.d.h/64) = true := by
  obtain ⟨a, ha⟩ := hh
  obtain ⟨b, hb⟩ := ho
  obtain ⟨c, hc⟩ := hl
  rw [chunkRuns, Scan.covers_read, getElem?_unitBits]
  simp only [Scan.init, Scan.pos, Scan.allRuns, Scan.pushRun, ↓reduceIte, covers_nil, false_or]
  have hstart : (e.d.h+offset)/64+0+0 = e.d.h/64+offset/64 := by omega
  rw [hstart]
  constructor
  · rintro ⟨h1, h2, h3⟩
    refine ⟨h1, by omega, ?_⟩
    rwa [show offset/4096*64+(l-(e.d.h/64+offset/64)) = l-e.d.h/64 from by omega] at h3
  · rintro ⟨h1, h2, h3⟩
    refine ⟨h1, by omega, ?_⟩
    rwa [show offset/4096*64+(l-(e.d.h/64+offset/64)) = l-e.d.h/64 from by omega]

end Tasvir
