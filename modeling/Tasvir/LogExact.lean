import Mathlib.Tactic
import Tasvir.Container
import Tasvir.InternalSync

/-! Which bits `tasvir_log` sets and which units it touches, for an address in any of the three
mappings of the data region. A range of at least one byte marks the lines it meets and nothing
else, in the numbering that `tasvir_sync_parse_log` reads. For an empty range the last byte lies
in front of the first one, and the outcome depends on the alignment of the address. -/
namespace Tasvir
open BitStream RunLength

/-- TASVIR_ADDR_LOG: two data regions above TASVIR_ADDR_DATA. -/
def addrLog : ℕ := addrData+2*2^40

/-- TASVIR_ADDR_END: behind the log and the local region. -/
def addrEnd : ℕ := addrLog+tasvirAlign (2^40 >>> 9)+tasvirAlign (2^30)

/-- The three mappings of the data region. -/
inductive Mapping
  | base
  | ro
  | rw
deriving DecidableEq

/-- TASVIR_ADDR_DATA, TASVIR_ADDR_DATA_RO and TASVIR_ADDR_DATA_RW. -/
def Mapping.addr : Mapping → ℕ
  | .base => addrData
  | .ro => alignx addrEnd (2^40)
  | .rw => alignx addrEnd (2^40)+2^40

/-- The address of a log unit. -/
def logAddr (unit : ℕ) : ℕ := (addrLog+8*unit)%2^64

/-- Line `l` has a byte in the range of `len` bytes from `off`. -/
def Meets (off len l : ℕ) : Prop := ∃ x, off ≤ x ∧ x ≤ off+len-1 ∧ x/64 = l

theorem Mapping.addr_spec (m : Mapping) :
    m.addr%2^40 = 0 ∧ 2^40 ≤ m.addr ∧ m.addr ≤ 5*2^40 := by
  cases m <;> decide

theorem Mapping.addr_add_mod (m : Mapping) {off : ℕ} (hoff : off < 2^40) :
    (m.addr+off)%2^40 = off := by
  have hm := m.addr_spec.1
  omega

theorem data2log_addr (m : Mapping) {off : ℕ} (hoff : off < 2^40) :
    data2log (m.addr+off) = off/4096 := by
  have hm := m.addr_spec.1
  rw [data2log_eq]
  omega

theorem meets_iff {off len : ℕ} (hlen : 1 ≤ len) (l : ℕ) :
    Meets off len l ↔ off/64 ≤ l ∧ l ≤ (off+len-1)/64 := by
  constructor
  · rintro ⟨x, h1, h2, rfl⟩
    exact ⟨Nat.div_le_div_right h1, Nat.div_le_div_right h2⟩
  · rintro ⟨h1, h2⟩
    exact ⟨max off (64*l), by omega, by omega, by omega⟩

theorem lineBit_tasvirLog_addr (m : Mapping) (log : Words) {off len : ℕ} (hlen : 1 ≤ len)
    (hend : off+len ≤ 2^40) (l : ℕ) : lineBit (tasvirLog log (m.addr+off) len) l = true ↔
      lineBit log l = true ∨ Meets off len l := by
  obtain ⟨-, -, hhi⟩ := m.addr_spec
  have hmod := m.addr_add_mod (show off < 2^40 from by omega)
  rw [lineBit_tasvirLog log _ len l hlen (by omega) (by omega), hmod, meets_iff hlen,
    Bool.or_eq_true, decide_eq_true_iff]

/-- The reader's bit of the line at offset `o` of the area whose header is at `h`. -/
theorem getLsbD_data2log (m : Mapping) (log : Words) {h o : ℕ} (hh : 32768 ∣ h)
    (ho : h+o < 2^40) :
    (log (data2log (m.addr+h)+o/4096)).getLsbD (63-o/64%64) = lineBit log ((h+o)/64) := by
  obtain ⟨a, ha⟩ := hh
  have hlt : o/64%64 < 64 := Nat.mod_lt _ (by norm_num)
  rw [data2log_addr m (by omega), lineBit, BitVec.getMsbD_eq_getLsbD,
    show (h+o)/64/64 = h/4096+o/4096 from by omega, show (h+o)/64%64 = o/64%64 from by omega]
  simp only [hlt, decide_true, Bool.true_and, show 64-1-o/64%64 = 63-o/64%64 from by omega]

/-- `tasvir_log` marks exactly the lines of its range, where the reader looks for them, and
these are the lines that the parser adds to its runs. -/
theorem tasvirLog_exact (m : Mapping) (log : Words) (off len : ℕ) (hlen : 1 ≤ len)
    (hend : off+len ≤ 2^40) :
    (∀ l, lineBit (tasvirLog log (m.addr+off) len) l = true ↔
      lineBit log l = true ∨ Meets off len l) ∧
    (∀ (r : Mapping) (h o : ℕ), 32768 ∣ h → h+o < 2^40 →
      ((tasvirLog log (m.addr+off) len (data2log (r.addr+h)+o/4096)).getLsbD (63-o/64%64) = true ↔
        (log (data2log (r.addr+h)+o/4096)).getLsbD (63-o/64%64) = true ∨
          Meets off len ((h+o)/64))) ∧
    (∀ (d : AreaDesc) (isLocal : Bool) (diff : ℕ → Words) (o n : ℕ), d.Wf → 32768 ∣ o →
      32768 ∣ n → o+n ≤ d.offsetLogEnd → 0 < n → ∀ l,
      (Covers (chunkRuns (internalEnv d isLocal) o n (fun u =>
          tasvirLog log (m.addr+off) len (data2log (addrData+d.h)+u)) diff).allRuns l ↔
        (d.h+o)/64 ≤ l ∧ l < (d.h+o+n)/64 ∧ (lineBit log l = true ∨ Meets off len l))) := by
  have hbits := lineBit_tasvirLog_addr m log hlen hend
  refine ⟨hbits, ?_, ?_⟩
  · intro r h o hh ho
    rw [getLsbD_data2log r _ hh ho, getLsbD_data2log r _ hh ho]
    exact hbits _
  · intro d isLocal diff o n hd ho hn hon hn0 l
    have hparse := covers_chunkRuns (internalEnv d isLocal) o n (fun u =>
      tasvirLog log (m.addr+off) len (data2log (addrData+d.h)+u)) diff hd.h_aligned ho hn l
    obtain ⟨a, ha⟩ := hd.h_aligned
    have hbase (hl : d.h/64 ≤ l) : lineBit (fun u =>
        tasvirLog log (m.addr+off) len (data2log (addrData+d.h)+u)) (l-d.h/64) = true ↔
        lineBit log l = true ∨ Meets off len l := by
      rw [hd.base (by omega), lineBit, show d.h/4096+(l-d.h/64)/64 = l/64 from by omega,
        show (l-d.h/64)%64 = l%64 from by omega, ← hbits l, lineBit]
    obtain ⟨b, hb⟩ := ho
    obtain ⟨c, hc⟩ := hn
    rw [hparse, merged_internal]
    change d.h/64+o/64 ≤ l ∧ l < d.h/64+(o+n)/64 ∧ _ ↔ _
    constructor
    · rintro ⟨h1, h2, h3⟩
      exact ⟨by omega, by omega, (hbase (by omega)).mp h3⟩
    · rintro ⟨h1, h2, h3⟩
      exact ⟨by omega, by omega, (hbase (by omega)).mpr h3⟩

theorem tasvirLog_exact_two_units : (1 ≤ 100 ∧ 40928+100 ≤ 2^40) ∧
    lineBit (tasvirLog (fun _ => 0#64) (Mapping.rw.addr+40928) 100) 639 = true ∧
    lineBit (tasvirLog (fun _ => 0#64) (Mapping.rw.addr+40928) 100) 641 = true ∧
    ¬lineBit (tasvirLog (fun _ => 0#64) (Mapping.rw.addr+40928) 100) 642 = true := by
  have h := (tasvirLog_exact .rw (fun _ => 0#64) 40928 100 (by norm_num) (by norm_num)).1
  refine ⟨by norm_num, ?_, ?_, ?_⟩
  · exact (h 639).mpr (Or.inr ⟨40928, by norm_num, by norm_num, by norm_num⟩)
  · exact (h 641).mpr (Or.inr ⟨41027, by norm_num, by norm_num, by norm_num⟩)
  · intro hset
    rcases (h 642).mp hset with hold | ⟨x, h1, h2, h3⟩
    · simp [lineBit] at hold
    · omega

/-! The units a call reads or writes, in order. -/

/-- The loop over the units strictly between first and last. -/
def fillOnesTraced (w : Words × List ℕ) (unit : ℕ) : ℕ → Words × List ℕ
  | 0 => w
  | n+1 =>
    fillOnesTraced (Function.update w.1 unit (BitVec.allOnes 64), w.2 ++ [unit]) (unit+1) n

/-- `tasvir_log` with the units it touches. -/
def tasvirLogTraced (log : Words) (data len : ℕ) : Words × List ℕ :=
  let logbitIdx0 := pext64 data (dataMask 6)
  let logbitIdx1 := pext64 ((data+len+(2^64-1))%2^64) (dataMask 6)
  let logunitIdx0 := logbitIdx0 >>> 6
  let logunitIdx1 := logbitIdx1 >>> 6
  let mask0 := BitVec.allOnes 64 >>> (logbitIdx0%64)
  let mask1 := (BitVec.intMin 64).sshiftRight (logbitIdx1%64)
  let logdiff := (logunitIdx1+2^64-logunitIdx0)%2^64
  -- the address is touched even if the unit is not written
  if logdiff = 0 then
    let valNew := log logunitIdx0 ||| (mask0 &&& mask1)
    (if log logunitIdx0 ≠ valNew then Function.update log logunitIdx0 valNew else log,
      [logunitIdx0])
  else
    let log := Function.update log logunitIdx0 (log logunitIdx0 ||| mask0)
    let w := fillOnesTraced (log, [logunitIdx0]) (logunitIdx0+1) (logdiff-1)
    (Function.update w.1 (logunitIdx0+logdiff) (w.1 (logunitIdx0+logdiff) ||| mask1),
      w.2 ++ [logunitIdx0+logdiff])

theorem fillOnesTraced_log (w : Words × List ℕ) (unit n : ℕ) :
    (fillOnesTraced w unit n).1 = fillOnes w.1 unit n := by
  induction n generalizing w unit with
  | zero => rfl
  | succ n ih => rw [fillOnesTraced, ih, fillOnes]

theorem mem_fillOnesTraced (w : Words × List ℕ) (unit n u : ℕ) :
    u ∈ (fillOnesTraced w unit n).2 ↔ u ∈ w.2 ∨ unit ≤ u ∧ u < unit+n := by
  induction n generalizing w unit with
  | zero =>
    simp only [fillOnesTraced, show ¬(unit ≤ u ∧ u < unit+0) from by omega, or_false]
  | succ n ih =>
    rw [fillOnesTraced, ih, List.mem_append, List.mem_singleton, or_assoc]
    apply or_congr_right
    omega

/-- The trace does not change what the call does. -/
theorem tasvirLogTraced_log (log : Words) (data len : ℕ) :
    (tasvirLogTraced log data len).1 = tasvirLog log data len := by
  simp only [tasvirLogTraced, tasvirLog]
  split_ifs
  · rfl
  · rfl
  · rw [fillOnesTraced_log]

/-- A call touches the units from its first line to its last one. -/
theorem mem_tasvirLogTraced (log : Words) (data len u : ℕ) :
    u ∈ (tasvirLogTraced log data len).2 ↔
      data%2^40/4096 ≤ u ∧ u ≤ lastLine data len/64 := by
  obtain ⟨hle, -, hdiff⟩ := lastLine_spec data len
  have hunit : data%2^40/64/64 = data%2^40/4096 := by omega
  simp only [tasvirLogTraced, pext_first data, Nat.shiftRight_eq_div_pow,
    show (2:ℕ)^6 = 64 from rfl, hdiff]
  rw [hunit] at hle ⊢
  generalize data%2^40/4096 = u0 at hle ⊢
  generalize lastLine data len = i1 at hle ⊢
  by_cases hz : i1/64-u0 = 0
  · rw [if_pos hz, List.mem_singleton]
    omega
  · rw [if_neg hz, List.mem_append, mem_fillOnesTraced, List.mem_singleton, List.mem_singleton]
    omega

/-- What a caller of `tasvir_log(data, 0)` expects: only the unit that covers `data` is
touched, and no bit changes. -/
def EmptyLogHarmless (log : Words) (data : ℕ) : Prop :=
  (∀ u ∈ (tasvirLogTraced log data 0).2, logAddr u = logAddr (data2log data)) ∧
  ∀ l, lineBit (tasvirLogTraced log data 0).1 l = lineBit log l

/-- The unit behind the one that covers an address is another word. -/
theorem logAddr_succ_ne (u : ℕ) : logAddr (u+1) ≠ logAddr u := by
  have hlog : addrLog = 3*2^40 := by decide
  rw [logAddr, logAddr, hlog]
  omega

/-- Where the empty range ends. At the start of a unit that is the end of the unit before, and
the difference of the units goes round; at the start of the region it is the end of the region. -/
theorem lastLine_empty (m : Mapping) {off : ℕ} (hoff : off < 2^40) :
    lastLine (m.addr+off) 0 = if off%4096 ≠ 0 then (off-1)/64
      else if off = 0 then 2^34-1 else (off-1)/64+2^70 := by
  obtain ⟨hm, hlo, hhi⟩ := m.addr_spec
  have hmod := m.addr_add_mod hoff
  have hend : (m.addr+off+0+(2^64-1))%2^64 = m.addr+off-1 := by omega
  simp only [lastLine, hmod, hend]
  by_cases h0 : off = 0
  · have hline : (m.addr+off-1)%2^40/64 = 2^34-1 := by omega
    rw [hline, if_neg (by omega), if_neg (by omega), if_pos h0]
  · have hline : (m.addr+off-1)%2^40 = off-1 := by
      rw [Nat.add_sub_assoc (by omega)]
      exact m.addr_add_mod (by omega)
    rw [hline, if_neg h0]
    by_cases hu : off%4096 = 0
    · rw [if_pos (by omega), if_neg (by omega)]
    · rw [if_neg (by omega), if_pos hu]

/-- Logging an empty range is harmless exactly where the address is not at the start of a log
unit, and is at the start of a line or in a line that is marked already. -/
theorem emptyLogHarmless_iff (m : Mapping) (log : Words) (off : ℕ) (hoff : off < 2^40) :
    EmptyLogHarmless log (m.addr+off) ↔
      off%4096 ≠ 0 ∧ (off%64 = 0 ∨ lineBit log (off/64) = true) := by
  have hmod := m.addr_add_mod hoff
  have hlast := lastLine_empty m hoff
  have hbits (l : ℕ) : lineBit (tasvirLogTraced log (m.addr+off) 0).1 l =
      (lineBit log l || decide (off/64 ≤ l ∧ l ≤ lastLine (m.addr+off) 0)) := by
    rw [tasvirLogTraced_log, lineBit_tasvirLog_lastLine, hmod]
  have hunits (u : ℕ) : u ∈ (tasvirLogTraced log (m.addr+off) 0).2 ↔
      off/4096 ≤ u ∧ u ≤ lastLine (m.addr+off) 0/64 := by
    rw [mem_tasvirLogTraced, hmod]
  rw [EmptyLogHarmless, data2log_addr m hoff]
  generalize tasvirLogTraced log (m.addr+off) 0 = w at hbits hunits ⊢
  by_cases hu : off%4096 = 0
  · -- the next unit is touched too
    rw [if_neg (not_not.mpr hu)] at hlast
    have hnext : off/4096+1 ∈ w.2 := by
      rw [hunits]
      split_ifs at hlast <;> omega
    constructor
    · rintro ⟨htouched, -⟩
      exact absurd (htouched _ hnext) (logAddr_succ_ne _)
    · rintro ⟨hne, -⟩
      exact absurd hu hne
  · rw [if_pos hu] at hlast
    have htouched : ∀ u ∈ w.2, logAddr u = logAddr (off/4096) := by
      intro u hmem
      rw [hunits, hlast] at hmem
      rw [show u = off/4096 from by omega]
    by_cases hl : off%64 = 0
    · -- the range of lines is empty
      refine iff_of_true ⟨htouched, ?_⟩ ⟨hu, Or.inl hl⟩
      intro l
      rw [hbits, hlast, decide_eq_false (by omega), Bool.or_false]
    · -- the line of the address gets its bit
      have hline (l : ℕ) : lineBit w.1 l = (lineBit log l || decide (l = off/64)) := by
        rw [hbits, hlast]
        exact congrArg (Bool.or _) (decide_eq_decide.mpr (by omega))
      constructor
      · rintro ⟨-, hsame⟩
        have hset := hsame (off/64)
        rw [hline, decide_eq_true rfl, Bool.or_true] at hset
        exact ⟨hu, Or.inr hset.symm⟩
      · rintro ⟨-, hset⟩
        refine ⟨htouched, ?_⟩
        intro l
        rw [hline]
        by_cases h : l = off/64
        · rw [h, hset.resolve_left hl, Bool.true_or]
        · rw [decide_eq_false h, Bool.or_false]

/-- At the start of a line inside a unit. -/
theorem emptyLogHarmless_line_start : 32832 < 2^40 ∧
    EmptyLogHarmless (fun _ => 0#64) (Mapping.base.addr+32832) :=
  ⟨by norm_num, (emptyLogHarmless_iff .base (fun _ => 0#64) 32832 (by norm_num)).mpr
    ⟨by norm_num, Or.inl (by norm_num)⟩⟩

/-- In an area with a clear log, an empty range at the start of a unit touches the next unit,
and one in the middle of a line marks that line. -/
theorem not_emptyLogHarmless : (⟨32768, 32768, false⟩ : AreaDesc).Wf ∧
    (10 ∈ (tasvirLogTraced (fun _ => 0#64) (Mapping.base.addr+36864) 0).2 ∧
      logAddr 10 ≠ logAddr (data2log (Mapping.base.addr+36864)) ∧
      ¬EmptyLogHarmless (fun _ => 0#64) (Mapping.base.addr+36864)) ∧
    (lineBit (tasvirLogTraced (fun _ => 0#64) (Mapping.base.addr+32769) 0).1 512 = true ∧
      lineBit (fun _ => 0#64) 512 = false ∧
      ¬EmptyLogHarmless (fun _ => 0#64) (Mapping.base.addr+32769)) := by
  have hclear : lineBit (fun _ => 0#64) 512 = false := by simp [lineBit]
  have hnext : 10 ∈ (tasvirLogTraced (fun _ => 0#64) (Mapping.base.addr+36864) 0).2 := by
    rw [mem_tasvirLogTraced, lastLine_empty .base (by norm_num),
      Mapping.addr_add_mod .base (by norm_num)]
    norm_num
  have hother : logAddr 10 ≠ logAddr (data2log (Mapping.base.addr+36864)) := by
    rw [data2log_addr .base (by norm_num)]
    exact logAddr_succ_ne 9
  have hset : lineBit (tasvirLogTraced (fun _ => 0#64) (Mapping.base.addr+32769) 0).1 512
      = true := by
    rw [tasvirLogTraced_log, lineBit_tasvirLog_lastLine, lastLine_empty .base (by norm_num),
      Mapping.addr_add_mod .base (by norm_num)]
    norm_num
  refine ⟨⟨by decide, by decide, by decide, by decide⟩, ⟨hnext, hother, ?_⟩, hset, hclear, ?_⟩
  · intro h
    exact hother (h.1 10 hnext)
  · intro h
    have hsame := h.2 512
    rw [hset, hclear] at hsame
    exact absurd hsame (by decide)

end Tasvir
