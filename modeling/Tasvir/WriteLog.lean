import Mathlib.Tactic
import Tasvir.BitStream

/-! The dirty log. One bit stands for a 64-byte line of the data region and one
64-bit unit for 4096 bytes; a unit holds its lowest line in its top bit. The
data region has 2^40 bytes and each of its three mappings starts at a multiple
of 2^40, so the low 40 bits of an address are its offset in the region. -/
namespace Tasvir
open BitStream

abbrev Word := BitVec 64

/-- A log: unit number to log unit. -/
abbrev Words := ℕ → Word

/-- TASVIR_NR_AREA_LOGS. -/
def nrAreaLogs : ℕ := 4

/-- The bit of line `l`. -/
def lineBit (log : Words) (l : ℕ) : Bool := (log (l/64)).getMsbD (l%64)

/-- `(TASVIR_SIZE_DATA - 1) & (~0UL << shift)`. -/
def dataMask (shift : ℕ) : ℕ := (2^40-1) &&& ((2^64-1) <<< shift % 2^64)

/-- `tasvir_data2log`, as an index from TASVIR_ADDR_LOG. -/
def data2log (data : ℕ) : ℕ := pext64 data (dataMask 12)

/-- The loop of `tasvir_log` over the units strictly between first and last. -/
def fillOnes (log : Words) (unit : ℕ) : ℕ → Words
  | 0 => log
  | n+1 => fillOnes (Function.update log unit (BitVec.allOnes 64)) (unit+1) n

/-- `tasvir_log`, with `data` an address in any of the three mappings. -/
def tasvirLog (log : Words) (data len : ℕ) : Words :=
  let logbitIdx0 := pext64 data (dataMask 6)
  -- the last byte of the range, with the wrap of the pointer arithmetic
  let logbitIdx1 := pext64 ((data+len+(2^64-1))%2^64) (dataMask 6)
  let logunitIdx0 := logbitIdx0 >>> 6
  let logunitIdx1 := logbitIdx1 >>> 6
  let mask0 := BitVec.allOnes 64 >>> (logbitIdx0%64)
  let mask1 := (BitVec.intMin 64).sshiftRight (logbitIdx1%64)
  let logdiff := (logunitIdx1+2^64-logunitIdx0)%2^64
  -- both ends in one unit, which is written only if it changes
  if logdiff = 0 then
    let valNew := log logunitIdx0 ||| (mask0 &&& mask1)
    if log logunitIdx0 ≠ valNew then Function.update log logunitIdx0 valNew else log
  else
    let log := Function.update log logunitIdx0 (log logunitIdx0 ||| mask0)
    -- the units in between get all bits, whatever they had
    let log := fillOnes log (logunitIdx0+1) (logdiff-1)
    Function.update log (logunitIdx0+logdiff) (log (logunitIdx0+logdiff) ||| mask1)

theorem dataMask_line : dataMask 6 = 2^6*(2^34-1) := by decide

theorem dataMask_unit : dataMask 12 = 2^12*(2^28-1) := by decide

theorem pext_line (data : ℕ) : pext64 data (dataMask 6) = data/64%2^34 := by
  rw [dataMask_line]
  exact pextAux_field 64 6 34 data (by norm_num)

theorem data2log_eq (data : ℕ) : data2log data = data/4096%2^28 := by
  rw [data2log, dataMask_unit]
  exact pextAux_field 64 12 28 data (by norm_num)

theorem fillOnes_apply (log : Words) (unit n u : ℕ) :
    fillOnes log unit n u = if unit ≤ u ∧ u < unit+n then BitVec.allOnes 64 else log u := by
  induction n generalizing log unit with
  | zero => simp only [fillOnes, show ¬(unit ≤ u ∧ u < unit+0) from by omega, ↓reduceIte]
  | succ n ih =>
    rw [fillOnes, ih]
    by_cases hu : u = unit
    · subst hu
      simp
    · rw [Function.update_of_ne hu]
      exact if_congr (by omega) rfl rfl

theorem getMsbD_mask0 (k i : ℕ) (hi : i < 64) :
    (BitVec.allOnes 64 >>> k).getMsbD i = decide (k ≤ i) := by
  rw [BitVec.getMsbD_ushiftRight, BitVec.getMsbD_allOnes]
  simp only [hi, decide_true, Bool.true_and, show i-k < 64 from by omega, Bool.and_true]
  by_cases h : i < k
  · simp [h]
  · simp [h, show k ≤ i from by omega]

theorem getMsbD_mask1 (k i : ℕ) (hi : i < 64) :
    ((BitVec.intMin 64).sshiftRight k).getMsbD i = decide (i ≤ k) := by
  have hmin (j : ℕ) : (BitVec.intMin 64).getMsbD j = decide (j = 0) := by
    rw [BitVec.getMsbD_intMin]
    simp
  rw [BitVec.getMsbD_sshiftRight, hmin]
  simp only [hi, decide_true, Bool.true_and]
  by_cases h : i < k
  · have hm : (BitVec.intMin 64).msb = true := by decide
    simp [h, hm, h.le]
  · simp only [h, ↓reduceIte]
    exact decide_eq_decide.mpr (by omega)

/-- The line of the last byte, counted on from the first line. Where it lies in a unit before
the first one, the unsigned difference of the units has gone round. -/
def lastLine (data len : ℕ) : ℕ :=
  let l := (data+len+(2^64-1))%2^64%2^40/64
  if l/64 < data%2^40/64/64 then l+2^70 else l

theorem pext_first (data : ℕ) : pext64 data (dataMask 6) = data%2^40/64 := by
  rw [pext_line]
  omega

/-- What `tasvir_log` computes from the last byte, in terms of the last line. -/
theorem lastLine_spec (data len : ℕ) :
    data%2^40/64/64 ≤ lastLine data len/64 ∧
    pext64 ((data+len+(2^64-1))%2^64) (dataMask 6)%64 = lastLine data len%64 ∧
    (pext64 ((data+len+(2^64-1))%2^64) (dataMask 6)/64+2^64-data%2^40/64/64)%2^64 =
      lastLine data len/64-data%2^40/64/64 := by
  rw [pext_first]
  have hlast : lastLine data len = if (data+len+(2^64-1))%2^64%2^40/64/64 < data%2^40/64/64 then
      (data+len+(2^64-1))%2^64%2^40/64+2^70 else (data+len+(2^64-1))%2^64%2^40/64 := rfl
  have hi0 : data%2^40/64 < 2^34 := by omega
  have hj : (data+len+(2^64-1))%2^64%2^40/64 < 2^34 := by omega
  rw [hlast]
  generalize data%2^40/64 = i0 at hi0 ⊢
  generalize (data+len+(2^64-1))%2^64%2^40/64 = j at hj ⊢
  split_ifs
  · refine ⟨?_, ?_, ?_⟩ <;> omega
  · refine ⟨?_, ?_, ?_⟩ <;> omega

/-- `tasvir_log` sets the bits from its first line to its last one, whatever the range is. -/
theorem lineBit_tasvirLog_lastLine (log : Words) (data len l : ℕ) :
    lineBit (tasvirLog log data len) l =
      (lineBit log l || decide (data%2^40/64 ≤ l ∧ l ≤ lastLine data len)) := by
  obtain ⟨hle, hmod, hdiff⟩ := lastLine_spec data len
  simp only [tasvirLog, pext_first data, Nat.shiftRight_eq_div_pow, show (2:ℕ)^6 = 64 from rfl, hmod,
    hdiff]
  generalize data%2^40/64 = i0 at hle ⊢
  generalize lastLine data len = i1 at hle ⊢
  simp only [lineBit]
  have hl : l%64 < 64 := Nat.mod_lt _ (by norm_num)
  by_cases hz : i1/64-i0/64 = 0
  · -- both ends in one unit: the two masks overlap
    have hu : i0/64 = i1/64 := by omega
    have hset : (if log (i0/64) ≠ log (i0/64) ||| (BitVec.allOnes 64 >>> (i0%64) &&&
          (BitVec.intMin 64).sshiftRight (i1%64)) then
        Function.update log (i0/64) (log (i0/64) ||| (BitVec.allOnes 64 >>> (i0%64) &&&
          (BitVec.intMin 64).sshiftRight (i1%64))) else log) =
        Function.update log (i0/64) (log (i0/64) ||| (BitVec.allOnes 64 >>> (i0%64) &&&
          (BitVec.intMin 64).sshiftRight (i1%64))) := by
      split_ifs with h
      · rfl
      · rw [← not_ne_iff.mp h, Function.update_eq_self]
    rw [if_pos hz, hset]
    by_cases hlu : l/64 = i0/64
    · rw [hlu, Function.update_self, BitVec.getMsbD_or, BitVec.getMsbD_and,
        getMsbD_mask0 _ _ hl, getMsbD_mask1 _ _ hl, ← Bool.decide_and]
      exact congrArg (Bool.or _) (decide_eq_decide.mpr (by omega))
    · rw [Function.update_of_ne hlu]
      simp only [show ¬(i0 ≤ l ∧ l ≤ i1) from by omega, decide_false, Bool.or_false]
  · -- first unit, full units, last unit
    rw [if_neg hz, show i0/64+(i1/64-i0/64) = i1/64 from by omega]
    have hne : i1/64 ≠ i0/64 := by omega
    by_cases hlast : l/64 = i1/64
    · rw [hlast, Function.update_self, BitVec.getMsbD_or, getMsbD_mask1 _ _ hl, fillOnes_apply,
        if_neg (by omega), Function.update_of_ne hne]
      exact congrArg (Bool.or _) (decide_eq_decide.mpr (by omega))
    · rw [Function.update_of_ne hlast, fillOnes_apply]
      by_cases hmid : i0/64+1 ≤ l/64 ∧ l/64 < i0/64+1+(i1/64-i0/64-1)
      · rw [if_pos hmid, BitVec.getMsbD_allOnes]
        simp only [hl, decide_true, show i0 ≤ l ∧ l ≤ i1 from by omega, Bool.or_true, and_self]
      · rw [if_neg hmid]
        by_cases hfst : l/64 = i0/64
        · rw [hfst, Function.update_self, BitVec.getMsbD_or, getMsbD_mask0 _ _ hl]
          exact congrArg (Bool.or _) (decide_eq_decide.mpr (by omega))
        · rw [Function.update_of_ne hfst]
          simp only [show ¬(i0 ≤ l ∧ l ≤ i1) from by omega, decide_false, Bool.or_false]

/-- `tasvir_log` sets the bits of the lines its range meets, and no others. -/
theorem lineBit_tasvirLog (log : Words) (data len l : ℕ) (hlen : 1 ≤ len)
    (hd : data%2^40+len ≤ 2^40) (hw : data+len ≤ 2^64) :
    lineBit (tasvirLog log data len) l =
      (lineBit log l || decide (data%2^40/64 ≤ l ∧ l ≤ (data%2^40+len-1)/64)) := by
  have hend : (data+len+(2^64-1))%2^64 = data+len-1 := by omega
  have hline : (data+len-1)%2^40/64 = (data%2^40+len-1)/64 := by omega
  have hlast : lastLine data len = (data%2^40+len-1)/64 := by
    simp only [lastLine, hend, hline]
    exact if_neg (by omega)
  rw [lineBit_tasvirLog_lastLine, hlast]

end Tasvir
