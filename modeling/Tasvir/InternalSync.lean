import Mathlib.Tactic
import Tasvir.InternalParse

/-! One completed internal sync of an area. Threads take aligned chunks of the
area in any order, each parses its chunks into its own list and empties the
list at the end; the calls of different threads interleave freely. -/
namespace Tasvir
open RunLength

/-- TASVIR_ADDR_DATA. -/
def addrData : ℕ := 2^40

/-- What an internal sync works on: both copies of the data region, the dirty
log, the area's diff logs and the sync list of every thread of the node. -/
structure NodeMem where
  ro : Mem
  rw : Mem
  log : Words
  diff : ℕ → Words
  lists : ℕ → SyncList

inductive SyncEvent
  /-- thread `t` calls `tasvir_sync_parse_log(d, offset, len, 0)` -/
  | parse (t offset len : ℕ)
  /-- thread `t` calls `tasvir_sync_process_changes(NULL, true, false)` -/
  | process (t : ℕ)
deriving DecidableEq

def internalEnv (d : AreaDesc) (isLocal : Bool) : ParseEnv :=
  ⟨d, 0, if isLocal then some 0 else none⟩

def NodeMem.parse (d : AreaDesc) (isLocal : Bool) (m : NodeMem) (t offset len : ℕ) : NodeMem :=
  let base := data2log (addrData+d.h)
  let r := (syncParseLog (internalEnv d isLocal) offset len
    { ro := m.ro, rw := m.rw, sl := m.lists t } (fun u => m.log (base+u)) m.diff).1
  { ro := r.scan.acc.ro, rw := r.scan.acc.rw
    log := fun u => if base ≤ u then r.log (u-base) else m.log u
    diff := r.diff
    lists := Function.update m.lists t r.scan.acc.sl }

def NodeMem.process (d : AreaDesc) (m : NodeMem) (t : ℕ) : NodeMem :=
  let c := (syncProcessChanges d true false { ro := m.ro, rw := m.rw, sl := m.lists t }).1
  { m with ro := c.ro, rw := c.rw, lists := Function.update m.lists t c.sl }

def syncEvent (d : AreaDesc) (isLocal : Bool) (m : NodeMem) : SyncEvent → NodeMem
  | .parse t offset len => m.parse d isLocal t offset len
  | .process t => m.process d t

def syncEvents (d : AreaDesc) (isLocal : Bool) (m : NodeMem) (evs : List SyncEvent) : NodeMem :=
  evs.foldl (syncEvent d isLocal) m

/-- The calls of a completed sync: aligned chunks inside the area that cover
it, and every thread empties its list after its last chunk. -/
structure Completes (d : AreaDesc) (evs : List SyncEvent) : Prop where
  aligned : ∀ t o n, .parse t o n ∈ evs → 32768 ∣ o ∧ 32768 ∣ n ∧ o+n ≤ d.offsetLogEnd ∧ 0 < n
  cover : ∀ o < d.offsetLogEnd, ∃ t a n, .parse t a n ∈ evs ∧ a ≤ o ∧ o < a+n
  flushed : ∀ p t o n q, evs = p ++ .parse t o n :: q → .process t ∈ q

/-- `job_bytes` is below 4 GiB. -/
def SmallChunks (evs : List SyncEvent) : Prop := ∀ t o n, .parse t o n ∈ evs → n < 2^32

/-- No run of set lines inside the chunk reaches 4 GiB. -/
def ShortIn (d : AreaDesc) (m : NodeMem) (o n : ℕ) : Prop :=
  ∀ l, d.h/64+o/64 ≤ l → l+2^26 ≤ d.h/64+(o+n)/64 → ∃ k < 2^26, lineBit m.log (l+k) = false

theorem shortIn_of_lt (d : AreaDesc) (m : NodeMem) {o n : ℕ} (ho : 32768 ∣ o) (hn : n < 2^32) :
    ShortIn d m o n := by
  intro l h1 h2
  obtain ⟨b, hb⟩ := ho
  omega

theorem ShortIn.mono {d : AreaDesc} {m m' : NodeMem} {o n : ℕ} (h : ShortIn d m o n)
    (hle : ∀ l, lineBit m'.log l = true → lineBit m.log l = true) : ShortIn d m' o n := by
  intro l h1 h2
  obtain ⟨k, hk, hclear⟩ := h l h1 h2
  refine ⟨k, hk, ?_⟩
  rw [← Bool.not_eq_true]
  intro hset
  rw [hle _ hset] at hclear
  exact Bool.noConfusion hclear

theorem Completes.smallChunks {d : AreaDesc} {evs : List SyncEvent} (h : Completes d evs)
    (hend : d.offsetLogEnd < 2^32) : SmallChunks evs := by
  intro t o n hx
  obtain ⟨-, -, hon, -⟩ := h.aligned t o n hx
  omega

/-- An area as `tasvir_new` lays it out: header and end aligned, inside the
data region. -/
structure AreaDesc.Wf (d : AreaDesc) : Prop where
  h_aligned : 32768 ∣ d.h
  /-- the root descriptor lies in front of all areas -/
  h_pos : 0 < d.h
  end_aligned : 32768 ∣ d.offsetLogEnd
  inside : d.h+d.offsetLogEnd ≤ 2^40

/-- Line `l` of the data region belongs to the area. -/
def AreaDesc.Has (d : AreaDesc) (l : ℕ) : Prop :=
  d.h/64 ≤ l ∧ l < d.h/64+d.offsetLogEnd/64

theorem AreaDesc.Wf.base {d : AreaDesc} (hd : d.Wf) (hpos : 0 < d.offsetLogEnd) :
    data2log (addrData+d.h) = d.h/4096 := by
  have := hd.inside
  rw [data2log_eq, addrData]
  omega

/-- Every item of a list is representable and stays clear of the area. -/
def Foreign (d : AreaDesc) (l : List SyncItem) : Prop :=
  ∀ it ∈ l, it.Fits ∧ ∀ x, d.Has x → ¬(it.run.1 ≤ x ∧ x < it.run.1+it.run.2)

/-- How far a sync that started in `m₀` has come. -/
structure Syncing (d : AreaDesc) (m₀ m : NodeMem) : Prop where
  rw_eq : m.rw = m₀.rw
  /-- no bit is set during a sync -/
  log_le : ∀ l, lineBit m.log l = true → lineBit m₀.log l = true
  /-- a clean line is not touched -/
  clean : ∀ x, d.Has (x/64) → lineBit m₀.log (x/64) = false → m.ro x = m₀.ro x
  /-- a line whose bit was cleared is copied or waits in a list -/
  copied : ∀ x, d.Has (x/64) → lineBit m₀.log (x/64) = true → lineBit m.log (x/64) = false →
    m.ro x = m₀.rw x ∨ ∃ t, Covers ((m.lists t).l.map SyncItem.run) (x/64)
  /-- what waits is representable and was dirty -/
  items : ∀ t, ∀ it ∈ (m.lists t).l, it.Fits ∧
    ∀ l, d.Has l → it.run.1 ≤ l → l < it.run.1+it.run.2 → lineBit m₀.log l = true
  log_out : ∀ l, ¬d.Has l → lineBit m.log l = lineBit m₀.log l

/-- Copying a list keeps what a sync has established and empties the list. -/
theorem Syncing.copyItems {d : AreaDesc} {m₀ m : NodeMem} (h : Syncing d m₀ m)
    (its : List SyncItem)
    (hits : ∀ it ∈ its, it.Fits ∧
      ∀ l, d.Has l → it.run.1 ≤ l → l < it.run.1+it.run.2 → lineBit m₀.log l = true) (x : ℕ)
    (hx : d.Has (x/64)) :
    (lineBit m₀.log (x/64) = false → Tasvir.copyItems m.rw its m.ro x = m₀.ro x) ∧
    (Covers (its.map SyncItem.run) (x/64) → Tasvir.copyItems m.rw its m.ro x = m₀.rw x) ∧
    (m.ro x = m₀.rw x → Tasvir.copyItems m.rw its m.ro x = m₀.rw x) := by
  obtain ⟨hin, hout⟩ := copyItems_apply m.rw its m.ro (fun it hit => (hits it hit).1) x
  rw [h.rw_eq] at hin hout ⊢
  refine ⟨?_, hin, ?_⟩
  · intro hclean
    rw [hout, h.clean x hx hclean]
    rintro ⟨r, hr, h1, h2⟩
    obtain ⟨it, hit, rfl⟩ := List.mem_map.mp hr
    rw [(hits it hit).2 _ hx h1 h2] at hclean
    exact Bool.noConfusion hclean
  · intro heq
    by_cases hc : Covers (its.map SyncItem.run) (x/64)
    · exact hin hc
    · rw [hout hc, heq]

theorem Syncing.process {d : AreaDesc} {m₀ m : NodeMem} (h : Syncing d m₀ m) (t : ℕ) :
    Syncing d m₀ (m.process d t) := by
  have hp := processItems_internal d true (m.lists t).l
    { ro := m.ro, rw := m.rw, sl := m.lists t }
  have hro : (m.process d t).ro = Tasvir.copyItems m.rw (m.lists t).l m.ro := by
    simp only [NodeMem.process, syncProcessChanges, hp]
  have hrw : (m.process d t).rw = m.rw := by
    simp only [NodeMem.process, syncProcessChanges, hp]
  have hself : ((m.process d t).lists t).l = [] := by
    simp only [NodeMem.process, syncProcessChanges, Function.update_self]
  have hother (t' : ℕ) (ht : t' ≠ t) : (m.process d t).lists t' = m.lists t' := by
    simp only [NodeMem.process, Function.update_of_ne ht]
  have hcopy := fun x hx => h.copyItems (m.lists t).l (h.items t) x hx
  refine ⟨hrw.trans h.rw_eq, h.log_le, ?_, ?_, ?_, h.log_out⟩
  · intro x hx hclean
    rw [hro]
    exact (hcopy x hx).1 hclean
  · intro x hx hd hb
    rw [hro]
    rcases h.copied x hx hd hb with hc | ⟨t', hc⟩
    · exact Or.inl ((hcopy x hx).2.2 hc)
    · by_cases ht : t' = t
      · subst ht
        exact Or.inl ((hcopy x hx).2.1 hc)
      · exact Or.inr ⟨t', by rw [hother t' ht]; exact hc⟩
  · intro t' it hit
    by_cases ht : t' = t
    · subst ht
      rw [hself] at hit
      exact absurd hit List.not_mem_nil
    · rw [hother t' ht] at hit
      exact h.items t' it hit

theorem lineBit_cleared (log : Words) (a b l : ℕ) :
    lineBit (cleared log a b) l = if a*64 ≤ l ∧ l < b*64 then false else lineBit log l := by
  by_cases hl : a*64 ≤ l ∧ l < b*64
  · rw [if_pos hl, lineBit, cleared, if_pos (by omega), BitVec.getMsbD_zero]
  · rw [if_neg hl, lineBit, cleared, if_neg (by omega), lineBit]

theorem internalEnv_wf (d : AreaDesc) (isLocal : Bool) : (internalEnv d isLocal).Wf := by
  left
  cases isLocal
  · exact ⟨rfl, Or.inl rfl⟩
  · exact ⟨rfl, Or.inr rfl⟩

theorem merged_internal (d : AreaDesc) (isLocal : Bool) (log : Words) (diff : ℕ → Words) :
    merged (internalEnv d isLocal) log diff = log := rfl

section
variable {d : AreaDesc} (hd : d.Wf)
variable (isLocal : Bool) (m : NodeMem) (t o n : ℕ)
variable (ho : 32768 ∣ o) (hn : 32768 ∣ n) (hon : o+n ≤ d.offsetLogEnd) (hn0 : 0 < n)
variable (hshort : ShortIn d m o n)
include hd ho hn hon hn0

theorem lineBit_base (l : ℕ) (hl : d.h/64 ≤ l) :
    lineBit (fun u => m.log (data2log (addrData+d.h)+u)) (l-d.h/64) = lineBit m.log l := by
  obtain ⟨a, ha⟩ := hd.h_aligned
  rw [hd.base (by omega), lineBit, lineBit,
    show d.h/4096+(l-d.h/64)/64 = l/64 from by omega, show (l-d.h/64)%64 = l%64 from by omega]

/-- A parsed chunk is clear, all other bits are as before. -/
theorem lineBit_parse (l : ℕ) : lineBit (m.parse d isLocal t o n).log l =
    if d.h/64+o/64 ≤ l ∧ l < d.h/64+(o+n)/64 then false else lineBit m.log l := by
  obtain ⟨hlog, -, -⟩ := syncParseLog_internal (internalEnv d isLocal)
    (internalEnv_wf d isLocal) rfl o n hn { ro := m.ro, rw := m.rw, sl := m.lists t }
    (fun u => m.log (data2log (addrData+d.h)+u)) m.diff
  have hb := hd.base (by omega)
  obtain ⟨a, ha⟩ := hd.h_aligned
  obtain ⟨b, hb'⟩ := ho
  obtain ⟨c, hc⟩ := hn
  simp only [NodeMem.parse, lineBit, hlog]
  by_cases hl : d.h/4096 ≤ l/64
  · rw [if_pos (by omega), hb]
    simp only [cleared]
    by_cases hin : d.h/64+o/64 ≤ l ∧ l < d.h/64+(o+n)/64
    · rw [if_pos hin, if_pos (by omega), BitVec.getMsbD_zero]
    · rw [if_neg hin, if_neg (by omega), show d.h/4096+(l/64-d.h/4096) = l/64 from by omega]
  · rw [if_neg (by omega), if_neg (by omega)]

include hshort in
/-- What a chunk adds to a list was dirty, and all its dirty lines are added. -/
theorem parse_queued : ∃ new done,
    (m.lists t).l ++ new = done ++ ((m.parse d isLocal t o n).lists t).l ∧
    (m.parse d isLocal t o n).ro = Tasvir.copyItems m.rw done m.ro ∧
    (m.parse d isLocal t o n).rw = m.rw ∧
    (∀ it ∈ new, it.Fits ∧
      ∀ l, it.run.1 ≤ l → l < it.run.1+it.run.2 → lineBit m.log l = true) ∧
    (∀ l, d.h/64+o/64 ≤ l → l < d.h/64+(o+n)/64 → lineBit m.log l = true →
      Covers (new.map SyncItem.run) l) := by
  obtain ⟨-, -, done, hl, hro, hrw⟩ := syncParseLog_internal (internalEnv d isLocal)
    (internalEnv_wf d isLocal) rfl o n hn { ro := m.ro, rw := m.rw, sl := m.lists t }
    (fun u => m.log (data2log (addrData+d.h)+u)) m.diff
  have hin := hd.inside
  have hcov (l : ℕ) : Covers (chunkRuns (internalEnv d isLocal) o n
        (fun u => m.log (data2log (addrData+d.h)+u)) m.diff).allRuns l ↔
      d.h/64+o/64 ≤ l ∧ l < d.h/64+(o+n)/64 ∧
        lineBit (fun u => m.log (data2log (addrData+d.h)+u)) (l-d.h/64) = true :=
    covers_chunkRuns (internalEnv d isLocal) o n _ m.diff hd.h_aligned ho hn l
  -- a run of 2^26 lines would have a clear line in it
  have hlt : ∀ r ∈ (chunkRuns (internalEnv d isLocal) o n
      (fun u => m.log (data2log (addrData+d.h)+u)) m.diff).allRuns, r.2 < 2^26 := by
    intro r hr
    by_contra hge
    have hlo := ((hcov r.1).mp ⟨r, hr, le_rfl, by omega⟩).1
    have hhi := ((hcov (r.1+r.2-1)).mp ⟨r, hr, by omega, by omega⟩).2.1
    obtain ⟨k, hk, hclear⟩ := hshort r.1 hlo (by omega)
    have hset := ((hcov (r.1+k)).mp ⟨r, hr, by omega, by omega⟩).2.2
    rw [lineBit_base hd m o n ho hn hon hn0 _ (by omega), hclear] at hset
    exact Bool.noConfusion hset
  have hfits := fun r hr => fits_chunkRuns (internalEnv d isLocal) o n
    (fun u => m.log (data2log (addrData+d.h)+u)) m.diff hd.h_aligned ho hn
    (by simp only [internalEnv]; omega) r hr (hlt r hr)
  refine ⟨(chunkRuns (internalEnv d isLocal) o n
    (fun u => m.log (data2log (addrData+d.h)+u)) m.diff).allRuns.map toItem,
    done, ?_, hro, hrw, ?_, ?_⟩
  · simpa only [NodeMem.parse, Function.update_self] using hl
  · intro it hit
    obtain ⟨r, hr, hri⟩ := List.mem_map.mp hit
    obtain ⟨hf, hrun⟩ := hfits r hr
    rw [← hri, hrun]
    refine ⟨hf, ?_⟩
    intro l h1 h2
    obtain ⟨h3, _, h5⟩ := (hcov l).mp ⟨r, hr, h1, h2⟩
    rwa [lineBit_base hd m o n ho hn hon hn0 l (by omega)] at h5
  · intro l h1 h2 h3
    have hc := (hcov l).mpr ⟨h1, h2, by
      rwa [lineBit_base hd m o n ho hn hon hn0 l (by omega)]⟩
    exact (covers_map_toItem _ (fun r hr => lt_trans (hlt r hr) (by norm_num)) l).mpr hc

include hshort in
theorem Syncing.parse {m₀ : NodeMem} (h : Syncing d m₀ m) :
    Syncing d m₀ (m.parse d isLocal t o n) := by
  obtain ⟨new, done, hl, hro, hrw, hnew, hall⟩ :=
    parse_queued hd isLocal m t o n ho hn hon hn0 hshort
  have hbit := lineBit_parse hd isLocal m t o n ho hn hon hn0
  have hle (l : ℕ) (hb : lineBit (m.parse d isLocal t o n).log l = true) :
      lineBit m.log l = true := by
    rw [hbit] at hb
    split_ifs at hb
    exact hb
  have hother (t' : ℕ) (ht : t' ≠ t) : (m.parse d isLocal t o n).lists t' = m.lists t' := by
    simp only [NodeMem.parse, Function.update_of_ne ht]
  have hitem : ∀ it ∈ done ++ ((m.parse d isLocal t o n).lists t).l, it.Fits ∧
      ∀ l, d.Has l → it.run.1 ≤ l → l < it.run.1+it.run.2 → lineBit m₀.log l = true := by
    rw [← hl]
    intro it hit
    rcases List.mem_append.mp hit with hit | hit
    · exact h.items t it hit
    · exact ⟨(hnew it hit).1, fun l _ h1 h2 => h.log_le l ((hnew it hit).2 l h1 h2)⟩
  have hcopy := fun x hx => h.copyItems done
    (fun it hit => hitem it (List.mem_append_left _ hit)) x hx
  -- a line known to be in the old list or in the new items is copied or in the new list
  have hmoved (x : ℕ) (hx : d.Has (x/64))
      (hc : Covers (((m.lists t).l ++ new).map SyncItem.run) (x/64)) :
      (m.parse d isLocal t o n).ro x = m₀.rw x ∨
        ∃ t', Covers (((m.parse d isLocal t o n).lists t').l.map SyncItem.run) (x/64) := by
    rw [hl, List.map_append, covers_append] at hc
    rcases hc with hc | hc
    · left
      rw [hro]
      exact (hcopy x hx).2.1 hc
    · exact Or.inr ⟨t, hc⟩
  refine ⟨hrw.trans h.rw_eq, fun l hb => h.log_le l (hle l hb), ?_, ?_, ?_, ?_⟩
  · intro x hx hclean
    rw [hro]
    exact (hcopy x hx).1 hclean
  · intro x hx hdirty hb
    by_cases hold : lineBit m.log (x/64) = true
    · apply hmoved x hx
      rw [List.map_append, covers_append]
      right
      rw [hbit, hold] at hb
      split_ifs at hb with hin
      exact hall _ hin.1 hin.2 hold
    · rcases h.copied x hx hdirty (by simpa using hold) with hc | ⟨t', hc⟩
      · left
        rw [hro]
        exact (hcopy x hx).2.2 hc
      · by_cases ht : t' = t
        · subst ht
          apply hmoved x hx
          rw [List.map_append, covers_append]
          exact Or.inl hc
        · exact Or.inr ⟨t', by rw [hother t' ht]; exact hc⟩
  · intro t' it hit
    by_cases ht : t' = t
    · subst ht
      exact hitem it (List.mem_append_right _ hit)
    · rw [hother t' ht] at hit
      exact h.items t' it hit
  · intro l hl'
    rw [hbit, if_neg, h.log_out l hl']
    intro hc
    apply hl'
    obtain ⟨a, ha⟩ := hd.h_aligned
    obtain ⟨b, hb⟩ := hd.end_aligned
    exact ⟨by omega, by omega⟩

/-- For a local area the chunk is added to diff log 0. -/
theorem lineBit_parse_diff (l : ℕ) :
    lineBit ((m.parse d true t o n).diff 0) l =
      (lineBit (m.diff 0) l || (decide (o/64 ≤ l ∧ l < (o+n)/64) && lineBit m.log (d.h/64+l))) := by
  obtain ⟨-, hdiff, -⟩ := syncParseLog_internal (internalEnv d true)
    (internalEnv_wf d true) rfl o n hn { ro := m.ro, rw := m.rw, sl := m.lists t }
    (fun u => m.log (data2log (addrData+d.h)+u)) m.diff
  have hbase := lineBit_base hd m o n ho hn hon hn0 (d.h/64+l) (by omega)
  rw [show d.h/64+l-d.h/64 = l from by omega] at hbase
  have hdiff0 : (m.parse d true t o n).diff 0 = fun u =>
      if o/4096 ≤ u ∧ u < o/4096+n/4096 then
        m.diff 0 u ||| m.log (data2log (addrData+d.h)+u) else m.diff 0 u := by
    simp only [NodeMem.parse, hdiff]
    simp only [absorbed, internalEnv, ↓reduceIte, Function.update_self]
  rw [← hbase, hdiff0]
  simp only [lineBit]
  obtain ⟨b, hb⟩ := ho
  obtain ⟨c, hc⟩ := hn
  by_cases hin : o/64 ≤ l ∧ l < (o+n)/64
  · rw [if_pos (by omega), BitVec.getMsbD_or]
    simp only [hin, and_self, decide_true, Bool.true_and]
  · rw [if_neg (by omega)]
    simp only [hin, decide_false, Bool.false_and, Bool.or_false]

end

/-- Diff log 0 has gained exactly the bits that the log has lost. -/
def Moved (d : AreaDesc) (m₀ m : NodeMem) : Prop :=
  ∀ l < d.offsetLogEnd/64, lineBit (m.diff 0) l =
    (lineBit (m₀.diff 0) l || (lineBit m₀.log (d.h/64+l) && !lineBit m.log (d.h/64+l)))

section
variable {d : AreaDesc} (hd : d.Wf) (isLocal : Bool)
include hd

theorem Moved.parse {m₀ m : NodeMem} (h : Moved d m₀ m)
    (hle : ∀ l, lineBit m.log l = true → lineBit m₀.log l = true) (t o n : ℕ)
    (hal : 32768 ∣ o ∧ 32768 ∣ n ∧ o+n ≤ d.offsetLogEnd ∧ 0 < n) :
    Moved d m₀ (m.parse d true t o n) := by
  obtain ⟨ho, hn, hon, hn0⟩ := hal
  intro l hl
  rw [lineBit_parse_diff hd m t o n ho hn hon hn0 l, h l hl,
    lineBit_parse hd true m t o n ho hn hon hn0]
  have hle := hle (d.h/64+l)
  by_cases hin : o/64 ≤ l ∧ l < (o+n)/64
  · rw [if_pos (by omega), decide_eq_true hin]
    cases h1 : lineBit m.log (d.h/64+l)
    · simp
    · rw [hle h1]
      simp
  · rw [if_neg (by omega), decide_eq_false hin]
    simp

theorem lineBit_events_le (evs : List SyncEvent)
    (hal : ∀ t o n, .parse t o n ∈ evs → 32768 ∣ o ∧ 32768 ∣ n ∧ o+n ≤ d.offsetLogEnd ∧ 0 < n)
    (m : NodeMem) (l : ℕ) (h : lineBit (syncEvents d isLocal m evs).log l = true) :
    lineBit m.log l = true := by
  induction evs generalizing m with
  | nil => exact h
  | cons ev evs ih =>
    have ht := ih (fun t o n hx => hal t o n (List.mem_cons_of_mem _ hx)) _ h
    cases ev with
    | process t => exact ht
    | parse t o n =>
      obtain ⟨ho, hn, hon, hn0⟩ := hal t o n List.mem_cons_self
      rw [syncEvent, lineBit_parse hd isLocal m t o n ho hn hon hn0] at ht
      split_ifs at ht
      exact ht

theorem Moved.events {m₀ : NodeMem} (evs : List SyncEvent)
    (hal : ∀ t o n, .parse t o n ∈ evs → 32768 ∣ o ∧ 32768 ∣ n ∧ o+n ≤ d.offsetLogEnd ∧ 0 < n)
    (m : NodeMem) (h : Moved d m₀ m)
    (hle : ∀ l, lineBit m.log l = true → lineBit m₀.log l = true) :
    Moved d m₀ (syncEvents d true m evs) := by
  induction evs generalizing m with
  | nil => exact h
  | cons ev evs ih =>
    apply ih (fun t o n hx => hal t o n (List.mem_cons_of_mem _ hx)) (syncEvent d true m ev)
    · cases ev with
      | parse t o n => exact h.parse hd hle t o n (hal t o n List.mem_cons_self)
      | process t => exact h
    · intro l hl
      apply hle l
      apply lineBit_events_le hd true [ev] _ m l hl
      intro t o n hx
      rw [List.mem_singleton] at hx
      exact hal t o n (hx ▸ List.mem_cons_self)

theorem Syncing.events {m₀ : NodeMem} (evs : List SyncEvent)
    (hshort : ∀ t o n, .parse t o n ∈ evs → ShortIn d m₀ o n)
    (hal : ∀ t o n, .parse t o n ∈ evs → 32768 ∣ o ∧ 32768 ∣ n ∧ o+n ≤ d.offsetLogEnd ∧ 0 < n)
    (m : NodeMem) (h : Syncing d m₀ m) : Syncing d m₀ (syncEvents d isLocal m evs) := by
  induction evs generalizing m with
  | nil => exact h
  | cons ev evs ih =>
    apply ih (fun t o n hx => hshort t o n (List.mem_cons_of_mem _ hx))
      (fun t o n hx => hal t o n (List.mem_cons_of_mem _ hx)) (syncEvent d isLocal m ev)
    cases ev with
    | parse t o n =>
      obtain ⟨ho, hn, hon, hn0⟩ := hal t o n List.mem_cons_self
      exact Syncing.parse hd isLocal m t o n ho hn hon hn0
        ((hshort t o n List.mem_cons_self).mono h.log_le) h
    | process t => exact h.process t

theorem log_clear_events (evs : List SyncEvent)
    (hal : ∀ t o n, .parse t o n ∈ evs → 32768 ∣ o ∧ 32768 ∣ n ∧ o+n ≤ d.offsetLogEnd ∧ 0 < n)
    (m : NodeMem) (l : ℕ) (h : lineBit m.log l = false ∨
      ∃ t o n, .parse t o n ∈ evs ∧ d.h/64+o/64 ≤ l ∧ l < d.h/64+(o+n)/64) :
    lineBit (syncEvents d isLocal m evs).log l = false := by
  induction evs generalizing m with
  | nil =>
    rcases h with h | ⟨t, o, n, hx, _⟩
    · exact h
    · exact absurd hx List.not_mem_nil
  | cons ev evs ih =>
    apply ih (fun t o n hx => hal t o n (List.mem_cons_of_mem _ hx))
    cases ev with
    | process t =>
      rcases h with h | ⟨t', o, n, hx, hlo, hhi⟩
      · exact Or.inl h
      · rcases List.mem_cons.mp hx with hx | hx
        · exact SyncEvent.noConfusion hx
        · exact Or.inr ⟨t', o, n, hx, hlo, hhi⟩
    | parse t o n =>
      obtain ⟨ho, hn, hon, hn0⟩ := hal t o n List.mem_cons_self
      have hbit := lineBit_parse hd isLocal m t o n ho hn hon hn0 l
      rcases h with h | ⟨t', o', n', hx, hlo, hhi⟩
      · left
        rw [syncEvent, hbit, h, ite_self]
      · rcases List.mem_cons.mp hx with hx | hx
        · left
          obtain ⟨rfl, rfl, rfl⟩ := SyncEvent.parse.inj hx
          rw [syncEvent, hbit, if_pos ⟨hlo, hhi⟩]
        · exact Or.inr ⟨t', o', n', hx, hlo, hhi⟩

end

/-- A thread that takes part ends with an empty list. -/
theorem lists_events (d : AreaDesc) (isLocal : Bool) (t : ℕ) (evs : List SyncEvent)
    (hfl : ∀ p o n q, evs = p ++ .parse t o n :: q → .process t ∈ q) (m : NodeMem) :
    (.process t ∈ evs → ((syncEvents d isLocal m evs).lists t).l = [] ∧
      ((syncEvents d isLocal m evs).lists t).changed = 0) ∧
    (.process t ∉ evs → (syncEvents d isLocal m evs).lists t = m.lists t) := by
  induction evs generalizing m with
  | nil => exact ⟨fun h => absurd h List.not_mem_nil, fun _ => rfl⟩
  | cons ev evs ih =>
    have ht := ih (fun p o n q h => hfl (ev :: p) o n q (by rw [h, List.cons_append]))
      (syncEvent d isLocal m ev)
    have hfold : syncEvents d isLocal m (ev :: evs) =
      syncEvents d isLocal (syncEvent d isLocal m ev) evs := rfl
    rw [hfold]
    cases ev with
    | parse t' o n =>
      by_cases htt : t' = t
      · -- its own chunk: a later call empties the list
        subst htt
        have hlater := hfl [] o n evs rfl
        exact ⟨fun _ => ht.1 hlater, fun h => absurd (List.mem_cons_of_mem _ hlater) h⟩
      · have hsame : (m.parse d isLocal t' o n).lists t = m.lists t := by
          simp only [NodeMem.parse, Function.update_of_ne (Ne.symm htt)]
        constructor
        · intro h
          rcases List.mem_cons.mp h with h | h
          · exact SyncEvent.noConfusion h
          · exact ht.1 h
        · intro h
          rw [ht.2 (fun hx => h (List.mem_cons_of_mem _ hx)), syncEvent, hsame]
    | process t' =>
      by_cases hlater : .process t ∈ evs
      · exact ⟨fun _ => ht.1 hlater, fun h => absurd (List.mem_cons_of_mem _ hlater) h⟩
      · rw [ht.2 hlater]
        by_cases htt : t' = t
        · subst htt
          refine ⟨fun _ => ?_, fun h => absurd List.mem_cons_self h⟩
          simp only [syncEvent, NodeMem.process, syncProcessChanges, Function.update_self, ↓reduceIte,
            and_self]
        · refine ⟨fun h => ?_, fun _ => ?_⟩
          · rcases List.mem_cons.mp h with h | h
            · exact absurd (SyncEvent.process.inj h).symm htt
            · exact absurd h hlater
          · simp only [syncEvent, NodeMem.process, Function.update_of_ne (Ne.symm htt)]

theorem Completes.log_clear {d : AreaDesc} (hd : d.Wf) (isLocal : Bool) {evs : List SyncEvent}
    (hev : Completes d evs) (m : NodeMem) (l : ℕ) (hl : d.Has l) :
    lineBit (syncEvents d isLocal m evs).log l = false := by
  obtain ⟨h1, h2⟩ := hl
  apply log_clear_events hd isLocal evs hev.aligned m l
  obtain ⟨t, a, n, hx, hlo, hhi⟩ := hev.cover ((l-d.h/64)*64) (by omega)
  obtain ⟨⟨b, hb⟩, ⟨c, hc⟩, _⟩ := hev.aligned t a n hx
  exact Or.inr ⟨t, a, n, hx, by omega, by omega⟩

/-- Whatever its size, a local area's dirty lines all enter diff log 0. -/
theorem Completes.diff_zero {d : AreaDesc} (hd : d.Wf) {evs : List SyncEvent}
    (hev : Completes d evs) (m : NodeMem) (l : ℕ) (hl : l < d.offsetLogEnd/64) :
    lineBit ((syncEvents d true m evs).diff 0) l =
      (lineBit (m.diff 0) l || lineBit m.log (d.h/64+l)) := by
  have hstart : Moved d m m := by
    intro l _
    cases lineBit m.log (d.h/64+l) <;> simp
  have hm := hstart.events hd evs hev.aligned m (fun _ h => h)
  rw [hm l hl, hev.log_clear hd true m _ ⟨by omega, by omega⟩]
  simp

/-- An internal sync leaves the older diff logs alone. -/
theorem diff_events (d : AreaDesc) (isLocal : Bool) (evs : List SyncEvent)
    (hal : ∀ t o n, .parse t o n ∈ evs → 32768 ∣ n) (m : NodeMem) (k : ℕ) (hk : k ≠ 0) :
    (syncEvents d isLocal m evs).diff k = m.diff k := by
  induction evs generalizing m with
  | nil => rfl
  | cons ev evs ih =>
    refine (ih (fun t o n hx => hal t o n (List.mem_cons_of_mem _ hx)) _).trans ?_
    cases ev with
    | process t => rfl
    | parse t o n =>
      obtain ⟨-, hdiff, -⟩ := syncParseLog_internal (internalEnv d isLocal)
        (internalEnv_wf d isLocal) rfl o n (hal t o n List.mem_cons_self)
        { ro := m.ro, rw := m.rw, sl := m.lists t }
        (fun u => m.log (data2log (addrData+d.h)+u)) m.diff
      simp only [syncEvent, NodeMem.parse, hdiff]
      cases isLocal with
      | false => rfl
      | true => simp only [absorbed, internalEnv, ↓reduceIte, Function.update_of_ne hk]

/-- What one completed internal sync does to an area. -/
structure Published (d : AreaDesc) (isLocal : Bool) (m m' : NodeMem) : Prop where
  rw_eq : m'.rw = m.rw
  log_in : ∀ l, d.Has l → lineBit m'.log l = false
  log_out : ∀ l, ¬d.Has l → lineBit m'.log l = lineBit m.log l
  ro_eq : ∀ x, d.Has (x/64) → m'.ro x = if lineBit m.log (x/64) then m.rw x else m.ro x
  diff_eq : isLocal = true → ∀ l < d.offsetLogEnd/64,
    lineBit (m'.diff 0) l = (lineBit (m.diff 0) l || lineBit m.log (d.h/64+l))
  lists_foreign : ∀ t, Foreign d (m'.lists t).l

theorem syncEvents_published_short {d : AreaDesc} (hd : d.Wf) (isLocal : Bool) (m : NodeMem)
    (evs : List SyncEvent) (hev : Completes d evs)
    (hshort : ∀ t o n, .parse t o n ∈ evs → ShortIn d m o n)
    (hlists : ∀ t, Foreign d (m.lists t).l) :
    Published d isLocal m (syncEvents d isLocal m evs) := by
  have hstart : Syncing d m m := by
    refine ⟨rfl, fun _ h => h, fun _ _ _ => rfl, ?_, ?_, fun _ _ => rfl⟩
    · intro x _ h1 h2
      rw [h1] at h2
      exact Bool.noConfusion h2
    · intro t it hit
      exact ⟨(hlists t it hit).1, fun l hl h1 h2 => absurd ⟨h1, h2⟩ ((hlists t it hit).2 l hl)⟩
  have hs := hstart.events hd isLocal evs hshort hev.aligned m
  have hclear := hev.log_clear hd isLocal m
  have hl : ∀ t, Foreign d ((syncEvents d isLocal m evs).lists t).l := by
    intro t
    obtain ⟨h1, h2⟩ := lists_events d isLocal t evs (fun p o n q h => hev.flushed p t o n q h) m
    by_cases hp : .process t ∈ evs
    · rw [(h1 hp).1]
      exact fun it hit => absurd hit List.not_mem_nil
    · rw [h2 hp]
      exact hlists t
  refine ⟨hs.rw_eq, hclear, hs.log_out, ?_, ?_, hl⟩
  · intro x hx
    by_cases hb : lineBit m.log (x/64) = true
    · rw [if_pos hb]
      rcases hs.copied x hx hb (hclear _ hx) with h | ⟨t, r, hr, h1, h2⟩
      · exact h
      · -- nothing of the area waits in a list any more
        obtain ⟨it, hit, rfl⟩ := List.mem_map.mp hr
        exact absurd ⟨h1, h2⟩ ((hl t it hit).2 _ hx)
    · rw [if_neg hb]
      exact hs.clean x hx (by simpa using hb)
  · intro hloc
    subst hloc
    exact hev.diff_zero hd m

theorem syncEvents_published {d : AreaDesc} (hd : d.Wf) (isLocal : Bool) (m : NodeMem)
    (evs : List SyncEvent) (hev : Completes d evs) (hsize : SmallChunks evs)
    (hlists : ∀ t, Foreign d (m.lists t).l) :
    Published d isLocal m (syncEvents d isLocal m evs) := by
  apply syncEvents_published_short hd isLocal m evs hev _ hlists
  intro t o n hx
  exact shortIn_of_lt d m (hev.aligned t o n hx).1 (hsize t o n hx)

end Tasvir
