import Mathlib.Tactic
import Tasvir.Emission

/-! `tasvir_sync_external_area`: choose the diff logs a subscriber may still
need, send their lines, and age the logs. -/
namespace Tasvir
open RunLength

/-- `tasvir_area_log` without its bitmap. -/
structure LogInfo where
  versionStart : ℕ := 0
  versionEnd : ℕ := 0
  startUs : ℕ := 0
  endUs : ℕ := 0
deriving DecidableEq, Repr

/-- The diff logs of an area, as the daemon sees them through `d->h`, and the
fields of the RO header that gate its external syncs. -/
structure AreaLogs where
  diff : ℕ → Words
  info : ℕ → LogInfo
  lastSyncExtUs : ℕ
  /-- TASVIR_AREA_FLAG_SLEEPING of the RO copy -/
  sleeping : Bool

/-- Difference of two `uint64_t`. -/
def sub64 (a b : ℕ) : ℕ := (a+2^64-b)%2^64

/-- The copy loop of `tasvir_rotate_logs`, eight units at a time. -/
def rotateGroups : ℕ → ℕ → Words × Words → Words × Words
  | 0, _, l => l
  | n+1, li, (l1, l2) =>
    let v := load8 l1 li
    if testMask v ≠ 0 then
      rotateGroups n (li+8)
        (store8 l1 li fun _ => 0#64, store8 l2 li fun i => v i ||| load8 l2 li i)
    else rotateGroups n (li+8) (l1, l2)

/-- `delta_us`. -/
def deltaUs : ℕ → ℕ
  | 1 => 5*1000000
  | 2 => 21*1000000
  | _ => 0

/-- The body of the loop of `tasvir_rotate_logs`: log `i` into log `i+1`. The
bitmaps of an area are adjacent, so the loop ends where the next one starts. -/
def rotateLog (d : AreaDesc) (timeUs : ℕ) (a : AreaLogs) (i : ℕ) : AreaLogs :=
  let l1 := a.info i
  if l1.versionEnd > l1.versionStart ∧ sub64 timeUs l1.startUs > deltaUs i then
    let r := rotateGroups ((d.offsetLogEnd/4096+7)/8) 0 (a.diff i, a.diff (i+1))
    { a with
      diff := Function.update (Function.update a.diff i r.1) (i+1) r.2
      info := Function.update (Function.update a.info i
        { l1 with versionStart := l1.versionEnd, startUs := l1.endUs }) (i+1)
        { a.info (i+1) with versionEnd := l1.versionEnd, endUs := l1.endUs } }
  else a

/-- `tasvir_rotate_logs`, from the oldest log on. -/
def rotateLogs (d : AreaDesc) (timeUs : ℕ) (a : AreaLogs) : AreaLogs :=
  [2, 1].foldl (rotateLog d timeUs) a

/-- What a call of `tasvir_sync_external_area` reads outside the area. -/
structure ExtCall where
  d : AreaDesc
  hasOwner : Bool
  /-- TASVIR_AREA_FLAG_LOCAL -/
  isLocal : Bool
  syncExtUs : ℕ
  /-- `ttld.tdata->time_us` -/
  tdataTimeUs : ℕ
  /-- `ttld.ndata->time_us` -/
  ndataTimeUs : ℕ
  lastSyncExtEnd : ℕ
  /-- the root daemon syncs the root area or its own node area with `node_init_req` set -/
  init : Bool
  /-- `h->users`: `none` where the node is NULL, else `*version` -/
  users : List (Option ℕ)

def versionMin (users : List (Option ℕ)) : ℕ :=
  users.foldl (fun m u => match u with
    | some v => if v < m then v else m
    | none => m) (2^64-1)

/-- The break condition of the pivot loop. -/
def ExtCall.stopsAt (e : ExtCall) (info : ℕ → LogInfo) (pivot : ℕ) : Bool :=
  decide (e.lastSyncExtEnd > (info pivot).endUs) &&
    decide (versionMin e.users ≥ (info pivot).versionEnd)

def pivotLoop (e : ExtCall) (info : ℕ → LogInfo) : ℕ → ℕ → ℕ
  | 0, pivot => pivot
  | n+1, pivot => if e.stopsAt info pivot then pivot else pivotLoop e info n (pivot+1)

def ExtCall.pivot (e : ExtCall) (info : ℕ → LogInfo) : ℕ :=
  let start := if e.init then nrAreaLogs-1 else 0
  pivotLoop e info (nrAreaLogs-start) start

/-- The versions and times `tasvir_sync_parse_log` hands to log 1. -/
def handOver (a : AreaLogs) : AreaLogs :=
  let l0 := a.info 0
  { a with
    info := Function.update (Function.update a.info 1
      { a.info 1 with versionEnd := l0.versionEnd, endUs := l0.endUs }) 0
      { l0 with versionStart := l0.versionEnd, startUs := l0.endUs } }

/-- Neither of the first two returns is taken. -/
def ExtCall.passes (e : ExtCall) (a : AreaLogs) : Bool :=
  (e.hasOwner && e.isLocal && (a.info 0).versionEnd != 0) &&
    !(decide (sub64 e.tdataTimeUs a.lastSyncExtUs < e.syncExtUs) || a.sleeping)

/-- `tasvir_sync_external_area`. -/
def syncExternalArea (e : ExtCall) (c : SyncCtx) (a : AreaLogs) : SyncCtx × AreaLogs × ℕ :=
  if !e.passes a then (c, a, 0)
  else
    let a := { a with lastSyncExtUs := e.tdataTimeUs }
    let c := { c with tx := { c.tx with lastSyncExtBytes := 0 } }
    let pivot := e.pivot a.info
    if pivot = 0 then (c, a, 0)
    else
      let r := syncParseLog ⟨e.d, pivot, some 1⟩ 0 e.d.offsetLogEnd c (a.diff 0) a.diff
      let a := { a with diff := Function.update r.1.diff 0 r.1.log }
      if r.2 ≠ 0 then (r.1.scan.acc, rotateLogs e.d e.ndataTimeUs (handOver a), r.2)
      else (r.1.scan.acc, a, r.2)

/-- A call of `tasvir_sync_external_area` with a line to send: it gets past its gates,
and a log below the pivot has a bit set. -/
def ExtCall.Sends (e : ExtCall) (a : AreaLogs) : Prop :=
  e.passes a = true ∧ ∃ p < e.pivot a.info, ∃ l < e.d.offsetLogEnd/64, lineBit (a.diff p) l = true

instance (e : ExtCall) (a : AreaLogs) : Decidable (e.Sends a) := inferInstanceAs (Decidable (_ ∧ _))

theorem rotateGroups_spec (n li : ℕ) (l1 l2 : Words) :
    rotateGroups n li (l1, l2) = (cleared l1 li (li+8*n),
      fun u => if li ≤ u ∧ u < li+8*n then l1 u ||| l2 u else l2 u) := by
  induction n generalizing li l1 l2 with
  | zero =>
    have hno (u : ℕ) : ¬(li ≤ u ∧ u < li+8*0) := by omega
    have hsame : cleared l1 li (li+8*0) = l1 := funext fun u => if_neg (hno u)
    simp only [rotateGroups, hsame, hno, ↓reduceIte]
  | succ n ih =>
    rw [rotateGroups]
    by_cases hz : testMask (load8 l1 li) = 0
    · -- a zero group has nothing to move
      have hzero (u : ℕ) (h1 : li ≤ u) (h2 : u < li+8) : l1 u = 0#64 := by
        have h := (testMask_eq_zero _).mp hz (u-li) (by omega)
        rwa [load8, show li+(u-li) = u from by omega] at h
      rw [if_neg (not_not.mpr hz), ih]
      refine Prod.ext ?_ ?_
      · funext u
        simp only [cleared]
        by_cases h1 : li ≤ u ∧ u < li+8
        · rw [if_neg (by omega), if_pos (by omega), hzero u h1.1 h1.2]
        · exact if_congr (by omega) rfl rfl
      · funext u
        by_cases h1 : li ≤ u ∧ u < li+8
        · simp only
          rw [if_neg (by omega), if_pos (by omega), hzero u h1.1 h1.2, BitVec.zero_or]
        · exact if_congr (by omega) rfl rfl
    · rw [if_pos hz, ih]
      refine Prod.ext ?_ ?_
      · funext u
        simp only [cleared, store8]
        by_cases h1 : li ≤ u ∧ u < li+8
        · rw [if_neg (by omega), if_pos h1, if_pos (by omega)]
        · rw [if_neg h1]
          exact if_congr (by omega) rfl rfl
      · funext u
        simp only [store8, load8]
        by_cases h1 : li ≤ u ∧ u < li+8
        · rw [if_neg (by omega), if_pos h1, if_pos (by omega),
            show li+(u-li) = u from by omega]
        · rw [if_neg h1, if_neg h1]
          exact if_congr (by omega) rfl rfl

theorem foldl_versionMin_le (users : List (Option ℕ)) (m : ℕ) :
    users.foldl (fun m u => match u with
      | some v => if v < m then v else m
      | none => m) m ≤ m ∧
    ∀ u, some u ∈ users → users.foldl (fun m u => match u with
      | some v => if v < m then v else m
      | none => m) m ≤ u := by
  induction users generalizing m with
  | nil => exact ⟨le_rfl, fun u h => absurd h List.not_mem_nil⟩
  | cons w users ih =>
    cases w with
    | none =>
      obtain ⟨h1, h2⟩ := ih m
      refine ⟨h1, fun u hu => h2 u ?_⟩
      simpa using hu
    | some v =>
      obtain ⟨h1, h2⟩ := ih (if v < m then v else m)
      have hle : (if v < m then v else m) ≤ m ∧ (if v < m then v else m) ≤ v := by
        split_ifs <;> omega
      refine ⟨h1.trans hle.1, ?_⟩
      intro u hu
      rcases List.mem_cons.mp hu with hu | hu
      · rw [Option.some.inj hu]
        exact h1.trans hle.2
      · exact h2 u hu

/-- No subscriber reports less than the minimum. -/
theorem versionMin_le {users : List (Option ℕ)} {u : ℕ} (hu : some u ∈ users) :
    versionMin users ≤ u := (foldl_versionMin_le users _).2 u hu

theorem pivotLoop_spec (e : ExtCall) (info : ℕ → LogInfo) (n pivot : ℕ) :
    pivot ≤ pivotLoop e info n pivot ∧ pivotLoop e info n pivot ≤ pivot+n ∧
    (pivotLoop e info n pivot < pivot+n →
      e.stopsAt info (pivotLoop e info n pivot) = true) ∧
    (pivotLoop e info n pivot = pivot+n → ∀ q, pivot ≤ q → q < pivot+n →
      e.stopsAt info q = false) := by
  induction n generalizing pivot with
  | zero => exact ⟨le_rfl, le_rfl, fun h => absurd h (by simp [pivotLoop]), fun _ q _ _ => by omega⟩
  | succ n ih =>
    rw [pivotLoop]
    by_cases hs : e.stopsAt info pivot = true
    · rw [if_pos hs]
      exact ⟨le_rfl, by omega, fun _ => hs, fun h => by omega⟩
    · rw [if_neg hs]
      obtain ⟨h1, h2, h3, h4⟩ := ih (pivot+1)
      refine ⟨by omega, by omega, fun h => h3 (by omega), ?_⟩
      intro h q hq1 hq2
      by_cases hq : q = pivot
      · rw [hq]
        simpa using hs
      · exact h4 (by omega) q (by omega) (by omega)

theorem pivot_spec (e : ExtCall) (info : ℕ → LogInfo) :
    e.pivot info ≤ 4 ∧ (e.pivot info < 4 → e.stopsAt info (e.pivot info) = true) ∧
    (e.init = true → 3 ≤ e.pivot info ∧ (e.pivot info = 4 → e.stopsAt info 3 = false)) := by
  simp only [ExtCall.pivot, nrAreaLogs]
  cases hi : e.init
  · obtain ⟨-, h2, h3, -⟩ := pivotLoop_spec e info 4 0
    simp only [Bool.false_eq_true, ↓reduceIte, Nat.sub_zero, false_implies, and_true]
    rw [Nat.zero_add] at h2 h3
    exact ⟨h2, h3⟩
  · obtain ⟨h1, h2, h3, h4⟩ := pivotLoop_spec e info 1 3
    simp only [↓reduceIte, forall_const]
    exact ⟨h2, h3, h1, fun h => h4 h 3 le_rfl (by norm_num)⟩

/-- The selected logs as one bitmap: diff log 0 with those below the pivot. -/
theorem lineBit_merged (e : ParseEnv) (hp : 1 ≤ e.pivot) (diff : ℕ → Words) (l : ℕ) :
    lineBit (merged e (diff 0) diff) l = true ↔ ∃ p < e.pivot, lineBit (diff p) l = true := by
  have hfold (ps : List ℕ) (w : Word) (k : ℕ) (f : ℕ → Word) :
      (ps.foldl (fun w p => w ||| f p) w).getMsbD k = true ↔
        w.getMsbD k = true ∨ ∃ p ∈ ps, (f p).getMsbD k = true := by
    induction ps generalizing w with
    | nil => simp
    | cons p ps ih =>
      rw [List.foldl_cons, ih, BitVec.getMsbD_or, Bool.or_eq_true, List.exists_mem_cons_iff,
        or_assoc]
  rw [lineBit, merged, hfold]
  constructor
  · rintro (h | ⟨p, hp', h⟩)
    · exact ⟨0, hp, h⟩
    · exact ⟨p, by have := List.mem_range'_1.mp hp'; omega, h⟩
  · rintro ⟨p, hlt, h⟩
    by_cases h0 : p = 0
    · left
      rw [← h0]
      exact h
    · exact Or.inr ⟨p, List.mem_range'_1.mpr ⟨by omega, by omega⟩, h⟩

end Tasvir
