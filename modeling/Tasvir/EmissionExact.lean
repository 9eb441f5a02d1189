import Mathlib.Tactic
import Tasvir.External
import Tasvir.InternalSync

/-! The messages of one external emission, exactly: which lines they carry and in
which order, how long they are, what they announce, and what becomes of the buffers. -/
namespace Tasvir
open BitStream RunLength

/-- The lines a message carries, one after the other. -/
def MemMsg.lineNos (m : MemMsg) : List ℕ := List.range' m.run.1 m.run.2

/-- Going from `c` to `c'` sent the messages `ms` of area `d`, which carry the lines `ls` in
this order; of the buffers taken on the way those without a message went back. -/
structure SendsLines (d : AreaDesc) (c c' : SyncCtx) (ms : List MemMsg) (ls : List ℕ) : Prop where
  ro_eq : c'.ro = c.ro
  own : ∀ m ∈ ms, m.d = d ∧ m.version = c.ro (d.h+offVersion)
  ring : c'.tx.ring = c.tx.ring ++ ms
  lines : ms.flatMap MemMsg.lineNos = ls
  size : ∀ m ∈ ms, 0 < m.len ∧ m.len ≤ 1344 ∧ m.len = 64*m.run.2
  buffers : c'.tx.taken+c.tx.returned = c.tx.taken+ms.length+c'.tx.returned

namespace SendsLines

theorem refl (d : AreaDesc) (c : SyncCtx) : SendsLines d c c [] [] :=
  ⟨rfl, fun _ h => absurd h List.not_mem_nil, (List.append_nil _).symm, rfl,
    fun _ h => absurd h List.not_mem_nil, rfl⟩

theorem trans {d : AreaDesc} {c₁ c₂ c₃ : SyncCtx} {ms ns : List MemMsg} {ls ks : List ℕ}
    (h1 : SendsLines d c₁ c₂ ms ls) (h2 : SendsLines d c₂ c₃ ns ks) :
    SendsLines d c₁ c₃ (ms ++ ns) (ls ++ ks) where
  ro_eq := h2.ro_eq.trans h1.ro_eq
  own := by
    intro m hm
    rcases List.mem_append.mp hm with hm | hm
    · exact h1.own m hm
    · rw [← h1.ro_eq]
      exact h2.own m hm
  ring := by rw [h2.ring, h1.ring, List.append_assoc]
  lines := by rw [List.flatMap_append, h1.lines, h2.lines]
  size := by
    intro m hm
    rcases List.mem_append.mp hm with hm | hm
    · exact h1.size m hm
    · exact h2.size m hm
  buffers := by
    have := h1.buffers
    have := h2.buffers
    rw [List.length_append]
    omega

end SendsLines

/-- The loop of `tasvir_msg_mem_generate` over `n` lines from line `a` on, with `i`
buffers of the current burst in use. -/
theorem msgMemLoop_lines (d : AreaDesc) (v : ℕ) (last : Bool) (k a n prev i : ℕ) (c : SyncCtx)
    (hk : k = (64*n+1343)/1344) (hi : i < 32) :
    ∃ ms, (msgMemLoop d v last k (64*a) (64*n) prev i c).tx.ring = c.tx.ring ++ ms ∧
      ms.flatMap MemMsg.lineNos = List.range' a n ∧
      (∀ m ∈ ms, 0 < m.len ∧ m.len ≤ 1344 ∧ m.len = 64*m.run.2) ∧
      (∀ m ∈ ms, m.d = d ∧ m.version = v) ∧
      (msgMemLoop d v last k (64*a) (64*n) prev i c).tx.taken+c.tx.returned+32 =
        c.tx.taken+ms.length+(msgMemLoop d v last k (64*a) (64*n) prev i c).tx.returned+i := by
  induction k generalizing a n prev i c with
  | zero =>
    have hn : n = 0 := by omega
    subst hn
    refine ⟨[], (List.append_nil _).symm, rfl, fun _ h => absurd h List.not_mem_nil,
      fun _ h => absurd h List.not_mem_nil, ?_⟩
    simp only [msgMemLoop, List.length_nil]
    omega
  | succ k ih =>
    obtain ⟨m, i', c', hstep, hrec⟩ := msgMemLoop_succ d v last k a n prev i c (by omega)
    obtain ⟨hi', htaken⟩ := hstep.taken hi
    obtain ⟨q, hq⟩ : ∃ q, q = min 21 n := ⟨_, rfl⟩
    have hlen := hstep.len_eq
    have hrun := hstep.run_eq
    rw [← hq] at hrec hlen hrun
    have hcut : List.range' a n = List.range' a q ++ List.range' (a+q) (n-q) := by
      rw [show List.range' (a+q) (n-q) = List.range' (a+1*q) (n-q) from by rw [Nat.one_mul],
        List.range'_append, show q+(n-q) = n from by omega]
    have hsize : 0 < m.len ∧ m.len ≤ 1344 ∧ m.len = 64*m.run.2 := by
      rw [hrun, hlen]
      dsimp only
      omega
    have hown : m.d = d ∧ m.version = v := ⟨hstep.fragment.d_eq, hstep.fragment.version_eq⟩
    obtain ⟨ms, h1, h2, h3, h5, h4⟩ := ih (a+q) (n-q) (prev+64*q) i' c' (by omega) hi'
    rw [hrec]
    refine ⟨m :: ms, ?_, ?_, List.forall_mem_cons.mpr ⟨hsize, h3⟩,
      List.forall_mem_cons.mpr ⟨hown, h5⟩, ?_⟩
    · rw [h1, hstep.ring, List.append_assoc]
      rfl
    · rw [List.flatMap_cons, h2, MemMsg.lineNos, hrun, hcut]
    · rw [hstep.returned] at h4
      rw [List.length_cons]
      omega

theorem processItem_lines (d : AreaDesc) (last : Bool) (c : SyncCtx) (it : SyncItem)
    (hit : it.offsetScaled < 2^58) :
    ∃ ms, SendsLines d c (processItem d true last c it) ms (positions [it.sent]) := by
  have hoff : it.offsetScaled*64%2^64 = 64*it.offsetScaled := by omega
  have hlen : it.lenScaled*64%2^32 = 64*(it.lenScaled%2^26) := by omega
  obtain ⟨ms, hring, hlines, hsize, hown, hbuf⟩ := msgMemLoop_lines d (c.ro (d.h+offVersion)) last
    ((64*(it.lenScaled%2^26)+1343)/1344) it.offsetScaled (it.lenScaled%2^26)
    c.tx.lastSyncExtBytes 0 { c with tx := { c.tx with taken := c.tx.taken+32 } } rfl (by norm_num)
  have hro := (msgMemLoop_appends d (c.ro (d.h+offVersion)) last
    ((64*(it.lenScaled%2^26)+1343)/1344) (64*it.offsetScaled) (64*(it.lenScaled%2^26))
    c.tx.lastSyncExtBytes 0 { c with tx := { c.tx with taken := c.tx.taken+32 } }).1
  simp only [processItem, hoff, hlen, ↓reduceIte, msgMemGenerate]
  refine ⟨ms, hro, hown, hring, ?_, hsize, ?_⟩
  · rw [hlines]
    simp [positions, SyncItem.sent]
  · dsimp only at hbuf ⊢
    omega

theorem processItems_lines (d : AreaDesc) (reset : Bool) (its : List SyncItem) (c : SyncCtx)
    (hf : ∀ it ∈ its, it.offsetScaled < 2^58) :
    ∃ ms, SendsLines d c (processItems d reset true its c) ms (positions (its.map SyncItem.sent)) := by
  induction its generalizing c with
  | nil => exact ⟨[], SendsLines.refl d c⟩
  | cons it its ih =>
    obtain ⟨ms, hs⟩ := processItem_lines d (reset && its.isEmpty) c it (hf it List.mem_cons_self)
    obtain ⟨ns, hs'⟩ := ih (processItem d true (reset && its.isEmpty) c it)
      (fun j hj => hf j (List.mem_cons_of_mem _ hj))
    refine ⟨ms ++ ns, ?_⟩
    have h := hs.trans hs'
    rwa [← show positions ((it :: its).map SyncItem.sent) =
      positions [it.sent] ++ positions (its.map SyncItem.sent) from by simp [positions]] at h

theorem syncProcessChanges_lines (d : AreaDesc) (reset : Bool) (c : SyncCtx)
    (hf : ∀ it ∈ c.sl.l, it.offsetScaled < 2^58) :
    ∃ ms, SendsLines d c (syncProcessChanges d reset true c).1 ms
      (positions (c.sl.l.map SyncItem.sent)) := by
  obtain ⟨ms, hs⟩ := processItems_lines d reset c.sl.l c hf
  exact ⟨ms, hs.ro_eq, hs.own, hs.ring, hs.lines, hs.size, hs.buffers⟩

/-- Items `rs` were added to the list of `c₀`; the lines of a prefix of the list have been
sent by flushes and the rest is still there. -/
def SentLines (d : AreaDesc) (c₀ c : SyncCtx) (rs : List Run) : Prop :=
  (∀ it ∈ c₀.sl.l ++ rs.map toItem, it.offsetScaled < 2^58) →
    ∃ done ms, c₀.sl.l ++ rs.map toItem = done ++ c.sl.l ∧
      SendsLines d c₀ c ms (positions (done.map SyncItem.sent))

theorem sentLines_push (d : AreaDesc) (c₀ c : SyncCtx) (rs : List Run) (s n : ℕ) (h : SentLines d c₀ c rs) :
    SentLines d c₀ (pushItem c s n) (Scan.pushRun rs s n) := by
  intro hf
  by_cases hn : n = 0
  · simp only [Scan.pushRun, hn, ↓reduceIte] at hf
    obtain ⟨done, ms, hl, hs⟩ := h hf
    refine ⟨done, ms, ?_, hs.ro_eq, hs.own, hs.ring, hs.lines, hs.size, hs.buffers⟩
    simpa [Scan.pushRun, pushItem, hn] using hl
  · have hsub : ∀ it ∈ c₀.sl.l ++ rs.map toItem, it.offsetScaled < 2^58 := by
      intro it hit
      apply hf
      simp only [Scan.pushRun, hn, ↓reduceIte, List.map_append, ← List.append_assoc]
      exact List.mem_append_left _ hit
    obtain ⟨done, ms, hl, hs⟩ := h hsub
    refine ⟨done, ms, ?_, hs.ro_eq, hs.own, hs.ring, hs.lines, hs.size, hs.buffers⟩
    simp only [Scan.pushRun, pushItem, hn, ↓reduceIte, List.map_append, ← List.append_assoc, hl]
    rfl

theorem sentLines_flush (d : AreaDesc) (c₀ c : SyncCtx) (rs : List Run) (h : SentLines d c₀ c rs) :
    SentLines d c₀ (syncProcessChanges d false true c).1 rs := by
  intro hf
  obtain ⟨done, ms, hl, hs⟩ := h hf
  have hrest : ∀ it ∈ c.sl.l, it.offsetScaled < 2^58 := by
    intro it hit
    apply hf
    rw [hl]
    exact List.mem_append_right _ hit
  obtain ⟨ns, hs'⟩ := syncProcessChanges_lines d false c hrest
  refine ⟨done ++ c.sl.l, ms ++ ns, ?_, ?_⟩
  · rw [hl]
    exact (List.append_nil _).symm
  · have h2 := hs.trans hs'
    rwa [← show positions ((done ++ c.sl.l).map SyncItem.sent) =
      positions (done.map SyncItem.sent) ++ positions (c.sl.l.map SyncItem.sent) from by
        simp [positions]] at h2

/-- The lines of an emission, with whatever the list held before. -/
theorem syncParseLog_lines (e : ParseEnv) (he : e.Wf) (hp : 1 ≤ e.pivot) (len : ℕ)
    (hl : 32768 ∣ len) (c : SyncCtx) (log : Words) (diff : ℕ → Words)
    (hq : (syncParseLog e 0 len c log diff).2 ≠ 0)
    (hf : ∀ it ∈ (c.sl.l ++ rootItems e.d) ++ (chunkRuns e 0 len log diff).allRuns.map toItem,
      it.offsetScaled < 2^58) :
    ∃ ms, SendsLines e.d c (syncParseLog e 0 len c log diff).1.scan.acc ms
      (positions (((c.sl.l ++ rootItems e.d) ++
        (chunkRuns e 0 len log diff).allRuns.map toItem).map SyncItem.sent)) := by
  have hex := external_eq_true e hp
  obtain ⟨hro, -, htx⟩ := parseInit_frame e c
  have hinit : Scan.Sim (SentLines e.d (parseInit e 0 c).acc) (parseInit e 0 c)
      (Scan.init ((e.d.h+0)/64)) := by
    refine ⟨?_, rfl, rfl, rfl, rfl⟩
    intro _
    exact ⟨[], [], by simp [Scan.init], SendsLines.refl _ _⟩
  have hflush (c' : SyncCtx) (rs : List Run) (h : SentLines e.d (parseInit e 0 c).acc c' rs) :
      SentLines e.d (parseInit e 0 c).acc (syncProcessChanges e.d false e.external c').1 rs := by
    rw [hex]
    exact sentLines_flush e.d _ c' rs h
  obtain ⟨-, -, hs⟩ := parseGroups_spec e he (sentLines_push e.d (parseInit e 0 c).acc) hflush
    ((len/4096+7)/8) 0 ⟨parseInit e 0 c, log, diff⟩ _ hinit
  rw [show 8*((len/4096+7)/8) = len/4096 from by omega] at hs
  obtain ⟨hsent, -⟩ := lastBatch_sim (sentLines_push e.d (parseInit e 0 c).acc) _ _ hs
  rw [← parseInit_list e hp c] at hf ⊢
  obtain ⟨done, ms, hdone, hsend⟩ := hsent hf
  have hrest : ∀ it ∈ (lastBatch (parseGroups e ((len/4096+7)/8) 0
      ⟨parseInit e 0 c, log, diff⟩).scan).acc.sl.l, it.offsetScaled < 2^58 := by
    intro it hit
    apply hf
    rw [show (chunkRuns e 0 len log diff).allRuns = _ from rfl, chunkRuns]
    simp only [Nat.zero_div]
    rw [hdone]
    exact List.mem_append_right _ hit
  obtain ⟨ns, hsend'⟩ := syncProcessChanges_lines e.d true _ hrest
  have hacc : (syncParseLog e 0 len c log diff).1.scan.acc =
      (syncProcessChanges e.d true true (lastBatch (parseGroups e ((len/4096+7)/8) 0
        ⟨parseInit e 0 c, log, diff⟩).scan).acc).1 := by
    -- a call that reports bytes ends with a flush
    by_cases ht : (lastBatch (parseGroups e ((len/4096+7)/8) 0
        ⟨parseInit e 0 c, log, diff⟩).scan).total = 0
    · exact absurd (by simp [syncParseLog, ht]) hq
    · simp only [syncParseLog, Nat.zero_div]
      rw [if_pos ⟨hex, ht⟩, hex]
  rw [hacc]
  have hall := hsend.trans hsend'
  refine ⟨ms ++ ns, hall.ro_eq.trans hro, ?_, ?_, ?_, hall.size, ?_⟩
  · rw [← hro]
    exact hall.own
  · rw [hall.ring, htx]
  · rw [hall.lines, chunkRuns]
    simp only [Nat.zero_div]
    rw [hdone, List.map_append]
    simp [positions]
  · have h := hall.buffers
    rwa [htx] at h

/-- The lines set in the diff logs below the pivot, in increasing order. -/
def dueLines (d : AreaDesc) (pivot : ℕ) (diff : ℕ → Words) : List ℕ :=
  (List.range' (d.h/64) (d.offsetLogEnd/64)).filter fun l =>
    (List.range pivot).any fun p => lineBit (diff p) (l-d.h/64)

/-- The runs of an emission list the due lines. -/
theorem positions_chunkRuns (d : AreaDesc) (hd : d.Wf) (pivot : ℕ) (hp : 1 ≤ pivot)
    (diff : ℕ → Words) :
    positions (chunkRuns ⟨d, pivot, some 1⟩ 0 d.offsetLogEnd (diff 0) diff).allRuns =
      dueLines d pivot diff := by
  obtain ⟨b, hb⟩ := hd.end_aligned
  have hlen : d.offsetLogEnd/4096*64 = d.offsetLogEnd/64 := by omega
  have hpos : (Scan.init (((⟨d, pivot, some 1⟩ : ParseEnv).d.h+0)/64)).pos = d.h/64 := by
    simp [Scan.init, Scan.pos]
  have hnil : positions (Scan.init (((⟨d, pivot, some 1⟩ : ParseEnv).d.h+0)/64)).allRuns = [] := by
    simp [Scan.allRuns, Scan.init, Scan.pushRun, positions]
  rw [chunkRuns, Scan.positions_read, length_unitBits, hlen, hpos, hnil, List.nil_append, dueLines]
  apply List.filter_congr
  intro l hl
  obtain ⟨h1, h2⟩ := List.mem_range'_1.mp hl
  rw [Bool.eq_iff_iff, decide_eq_true_eq, getElem?_unitBits, List.any_eq_true]
  rw [Nat.zero_div, Nat.zero_mul, Nat.zero_add, lineBit_merged ⟨d, pivot, some 1⟩ hp]
  constructor
  · rintro ⟨-, p, hp', hb'⟩
    exact ⟨p, List.mem_range.mpr hp', hb'⟩
  · rintro ⟨p, hp', hb'⟩
    exact ⟨by omega, p, List.mem_range.mp hp', hb'⟩

/-- A call reports bytes exactly when a line is due. -/
theorem dueLines_ne_nil (d : AreaDesc) (hd : d.Wf) (pivot : ℕ) (hp : 1 ≤ pivot) (hp4 : pivot ≤ 4)
    (c : SyncCtx) (diff : ℕ → Words) :
    (syncParseLog ⟨d, pivot, some 1⟩ 0 d.offsetLogEnd c (diff 0) diff).2 ≠ 0 ↔
      dueLines d pivot diff ≠ [] := by
  have he : (⟨d, pivot, some 1⟩ : ParseEnv).Wf := Or.inr ⟨hp, hp4, rfl⟩
  obtain ⟨-, -, hbytes⟩ := syncParseLog_logs ⟨d, pivot, some 1⟩ he d.offsetLogEnd hd.end_aligned c
    (diff 0) diff
  have hcount := Scan.sum_allRuns (Scan.init ((d.h+0)/64)) rfl
    (unitBits (merged ⟨d, pivot, some 1⟩ (diff 0) diff) (0/4096) (d.offsetLogEnd/4096))
  have hlen : (dueLines d pivot diff).length =
      (unitBits (merged ⟨d, pivot, some 1⟩ (diff 0) diff) 0 (d.offsetLogEnd/4096)).count true := by
    rw [← positions_chunkRuns d hd pivot hp diff, positions, List.length_flatMap]
    simpa [Scan.init, chunkRuns, Function.comp_def] using hcount
  rw [hbytes, ← hlen, ← List.length_pos_iff]
  omega

section Whole
variable (d : AreaDesc) (hd : d.Wf) (pivot : ℕ) (hp : 1 ≤ pivot) (hp4 : pivot ≤ 4)
variable (c : SyncCtx) (hc : c.sl.l = []) (diff : ℕ → Words)

/-- The lines of an emission: those due, behind the root descriptor's for the root area. -/
def emittedLines (d : AreaDesc) (pivot : ℕ) (diff : ℕ → Words) : List ℕ :=
  if dueLines d pivot diff = [] then []
  else (if d.isRoot then [0, 1] else []) ++ dueLines d pivot diff

include hd hp hp4 in
/-- Where no line is due nothing is sent. -/
theorem emission_nothing (hdue : dueLines d pivot diff = []) :
    (syncParseLog ⟨d, pivot, some 1⟩ 0 d.offsetLogEnd c (diff 0) diff).1.scan.acc.tx = c.tx := by
  have hne := dueLines_ne_nil d hd pivot hp hp4 c diff
  have hq := syncParseLog_quiet ⟨d, pivot, some 1⟩ (Or.inr ⟨hp, hp4, rfl⟩) d.offsetLogEnd
    hd.end_aligned c (diff 0) diff (not_not.mp (mt hne.mp (not_not.mpr hdue)))
  obtain ⟨-, -, htx⟩ := parseInit_frame ⟨d, pivot, some 1⟩ c
  rw [hq, htx]

include hd in
/-- The items of an emission without a run of 4 GiB fit, the root descriptor's included. -/
theorem emission_fits (hshort : ∀ r ∈ (chunkRuns ⟨d, pivot, some 1⟩ 0 d.offsetLogEnd (diff 0)
      diff).allRuns, r.2 < 2^26) :
    (∀ it ∈ rootItems d ++
      (chunkRuns ⟨d, pivot, some 1⟩ 0 d.offsetLogEnd (diff 0) diff).allRuns.map toItem, it.Fits) ∧
    (rootItems d ++ (chunkRuns ⟨d, pivot, some 1⟩ 0 d.offsetLogEnd (diff 0)
      diff).allRuns.map toItem).map SyncItem.sent = (if d.isRoot then [(0, 2)] else []) ++
      (chunkRuns ⟨d, pivot, some 1⟩ 0 d.offsetLogEnd (diff 0) diff).allRuns := by
  have hrun (r : Run) (hr : r ∈ (chunkRuns ⟨d, pivot, some 1⟩ 0 d.offsetLogEnd (diff 0)
      diff).allRuns) : (toItem r).Fits ∧ (toItem r).run = r :=
    fits_chunkRuns ⟨d, pivot, some 1⟩ 0 d.offsetLogEnd (diff 0) diff hd.h_aligned
      (Nat.dvd_zero _) hd.end_aligned hd.inside r hr (hshort r hr)
  constructor
  · intro it hit
    rcases List.mem_append.mp hit with hit | hit
    · rw [rootItems] at hit
      split_ifs at hit
      · rw [List.mem_singleton.mp hit]
        exact ⟨by norm_num [rootDescLines], by norm_num [rootDescLines],
          by norm_num [rootDescLines]⟩
      · exact absurd hit List.not_mem_nil
    · obtain ⟨r, hr, rfl⟩ := List.mem_map.mp hit
      exact (hrun r hr).1
  · rw [List.map_append, List.map_map]
    congr 1
    · rw [rootItems]
      split_ifs <;> rfl
    · calc
        _ = (chunkRuns ⟨d, pivot, some 1⟩ 0 d.offsetLogEnd (diff 0) diff).allRuns.map id :=
          List.map_congr_left fun r hr => (hrun r hr).1.sent_eq.trans (hrun r hr).2
        _ = _ := List.map_id _

include hd hc in
/-- Every item of an emission starts in the data region. -/
theorem emission_offsets : ∀ it ∈ (c.sl.l ++ rootItems d) ++ (chunkRuns ⟨d, pivot, some 1⟩ 0
    d.offsetLogEnd (diff 0) diff).allRuns.map toItem, it.offsetScaled < 2^58 := by
  intro it hit
  have hin := hd.inside
  rcases List.mem_append.mp hit with hit | hit
  · rw [hc, List.nil_append, rootItems] at hit
    split_ifs at hit
    · rw [List.mem_singleton.mp hit]
      norm_num
    · exact absurd hit List.not_mem_nil
  · obtain ⟨t, ht, rfl⟩ := List.mem_map.mp hit
    have h := (Scan.maximal_read ((d.h+0)/64) (unitBits (merged ⟨d, pivot, some 1⟩ (diff 0) diff)
      (0/4096) (d.offsetLogEnd/4096))).inside ht
    rw [length_unitBits] at h
    simp only [toItem]
    omega

include hd hp hp4 hc in
/-- Without a run of 4 GiB the whole emission leaves the node. -/
theorem emission_whole (hshort : ∀ r ∈ (chunkRuns ⟨d, pivot, some 1⟩ 0 d.offsetLogEnd (diff 0)
      diff).allRuns, r.2 < 2^26) (hdue : dueLines d pivot diff ≠ []) :
    ∃ ms, Marked true ms ∧
      Stream d (c.ro (d.h+offVersion)) c.ro c.tx.lastSyncExtBytes ms ∧
      SendsLines d c (syncParseLog ⟨d, pivot, some 1⟩ 0 d.offsetLogEnd c (diff 0) diff).1.scan.acc ms
        (emittedLines d pivot diff) := by
  have he : (⟨d, pivot, some 1⟩ : ParseEnv).Wf := Or.inr ⟨hp, hp4, rfl⟩
  have hq := (dueLines_ne_nil d hd pivot hp hp4 c diff).mpr hdue
  obtain ⟨hf, hruns⟩ := emission_fits d hd pivot diff hshort
  have hl : c.sl.l ++ rootItems d = rootItems d := by rw [hc, List.nil_append]
  have hoff (it : SyncItem) (hit : it.Fits) : it.offsetScaled < 2^58 := by
    obtain ⟨h0, -, h2⟩ := hit
    omega
  obtain ⟨-, ms, hsend, hmark⟩ := syncParseLog_emits ⟨d, pivot, some 1⟩ he hp d.offsetLogEnd
    hd.end_aligned c (diff 0) diff hq (by rw [hl]; exact hf)
  obtain ⟨ns, hlines⟩ := syncParseLog_lines ⟨d, pivot, some 1⟩ he hp d.offsetLogEnd
    hd.end_aligned c (diff 0) diff hq (by rw [hl]; exact fun it hit => hoff it (hf it hit))
  obtain rfl : ms = ns := List.append_cancel_left (hsend.ring.symm.trans hlines.ring)
  refine ⟨ms, hmark, hsend.stream, hlines.ro_eq, hlines.own, hlines.ring, ?_, hlines.size,
    hlines.buffers⟩
  rw [hlines.lines, hl, hruns, emittedLines, if_neg hdue, ← positions_chunkRuns d hd pivot hp diff]
  split_ifs <;> simp [positions, List.range']

end Whole

/-- An external emission below 4 GiB, with nothing left in the list: the messages carry the
lines due, once each and in increasing order, behind the root descriptor's two lines for the
root area, and there are none when no line is due. Each is a piece of at most 21 lines of
the RO copy that announces the bytes before it, the final one and no other is marked last,
diff log 0 moves into diff log 1, and a buffer taken is enqueued or given back. -/
theorem emission_exact (d : AreaDesc) (hd : d.Wf) (hsize : d.offsetLogEnd < 2^32) (pivot : ℕ)
    (hp : 1 ≤ pivot) (hp4 : pivot ≤ 4) (ro rw : Mem) (tx : TxState) (diff : ℕ → Words) :
    let c : SyncCtx := { ro := ro, rw := rw, tx := { tx with lastSyncExtBytes := 0 } }
    let r := (syncParseLog ⟨d, pivot, some 1⟩ 0 d.offsetLogEnd c (diff 0) diff).1
    let due := dueLines d pivot diff
    (∃ ms, r.scan.acc.tx.ring = tx.ring ++ ms ∧
      ms.flatMap MemMsg.lineNos =
        (if due = [] then [] else (if d.isRoot then [0, 1] else []) ++ due) ∧
      (∀ ms₁ m ms₂, ms = ms₁ ++ m :: ms₂ → 0 < m.len ∧ m.len ≤ 1344 ∧
        m.addr = some (64*m.run.1) ∧ m.len = 64*m.run.2 ∧
        (∀ k, k < m.len → m.line k = ro (64*m.run.1+k)) ∧ m.prevBytes = bytesOf ms₁) ∧
      (due ≠ [] → Marked true ms) ∧
      r.scan.acc.tx.taken+tx.returned = tx.taken+ms.length+r.scan.acc.tx.returned) ∧
    (∀ u, u < d.offsetLogEnd/4096 → Function.update r.diff 0 r.log 0 u = 0#64 ∧
      Function.update r.diff 0 r.log 1 u = diff 0 u ||| diff 1 u) ∧
    (∀ p u, 2 ≤ p ∨ d.offsetLogEnd/4096 ≤ u → Function.update r.diff 0 r.log p u = diff p u) := by
  intro c r due
  have he : (⟨d, pivot, some 1⟩ : ParseEnv).Wf := Or.inr ⟨hp, hp4, rfl⟩
  obtain ⟨hlog, hdiff, -⟩ := syncParseLog_logs ⟨d, pivot, some 1⟩ he d.offsetLogEnd hd.end_aligned
    c (diff 0) diff
  refine ⟨?_, ?_, ?_⟩
  · by_cases hdue : due = []
    · have htx := emission_nothing d hd pivot hp hp4 c diff hdue
      refine ⟨[], ?_, ?_, ?_, ?_, ?_⟩
      · rw [htx, List.append_nil]
      · rw [if_pos hdue]
        rfl
      · intro ms₁ m ms₂ h
        simp at h
      · intro h
        exact absurd hdue h
      · rw [htx]
        rfl
    · -- no run is longer than the area
      have hshort (x : Run) (hx : x ∈ (chunkRuns ⟨d, pivot, some 1⟩ 0 d.offsetLogEnd (diff 0)
          diff).allRuns) : x.2 < 2^26 := by
        have hin := (Scan.maximal_read ((d.h+0)/64) (unitBits (merged ⟨d, pivot, some 1⟩
          (diff 0) diff) (0/4096) (d.offsetLogEnd/4096))).inside hx
        rw [length_unitBits] at hin
        omega
      obtain ⟨ms, hmark, hstream, hlines⟩ := emission_whole d hd pivot hp hp4 c rfl diff hshort hdue
      refine ⟨ms, hlines.ring, hlines.lines, ?_, fun _ => hmark, hlines.buffers⟩
      intro ms₁ m ms₂ h
      have hm : m ∈ ms := by simp [h]
      rw [h] at hstream
      obtain ⟨-, -, hprev, a, n, haddr, hlen, hn, hline⟩ := hstream.split.2.1
      obtain ⟨h1, h2, h3⟩ := hlines.size m hm
      have hrun : m.run = (a, n) := by
        simp [MemMsg.run, haddr, hlen]
      rw [hrun]
      refine ⟨h1, h2, haddr, hlen, fun k _ => hline k, ?_⟩
      rw [hprev]
      exact Nat.zero_add _
  · intro u hu
    rw [Function.update_self, Function.update_of_ne (by norm_num)]
    rw [show r.log = _ from hlog, show r.diff = _ from hdiff]
    simp only [cleared, absorbed, Function.update_self]
    rw [if_pos ⟨Nat.zero_le u, hu⟩, if_pos ⟨Nat.zero_le u, hu⟩]
    exact ⟨rfl, BitVec.or_comm _ _⟩
  · intro p u hpu
    have hout : ∀ v : Words, ∀ w, d.offsetLogEnd/4096 ≤ u →
        (if 0 ≤ u ∧ u < d.offsetLogEnd/4096 then w else v u) = v u :=
      fun v w h => if_neg (by omega)
    rcases Nat.lt_or_ge p 2 with hp2 | hp2
    · have hu : d.offsetLogEnd/4096 ≤ u := by omega
      interval_cases p
      · rw [Function.update_self, show r.log = _ from hlog, cleared]
        exact hout _ _ hu
      · rw [Function.update_of_ne (by norm_num), show r.diff = _ from hdiff]
        simp only [absorbed, Function.update_self]
        exact hout _ _ hu
    · rw [Function.update_of_ne (by omega), show r.diff = _ from hdiff]
      simp only [absorbed]
      rw [Function.update_of_ne (by omega)]

/-- The first line of the root area is dirty: its emission carries the two lines of the root
descriptor and that line. -/
theorem emission_exact_root_line :
    let d : AreaDesc := ⟨32768, 32768, true⟩
    let diff : ℕ → Words := fun p u => if p = 0 ∧ u = 0 then 1#64 <<< 63 else 0#64
    d.Wf ∧ d.offsetLogEnd < 2^32 ∧ ∃ ms,
      (syncParseLog ⟨d, 1, some 1⟩ 0 d.offsetLogEnd { ro := fun _ => 7, rw := fun _ => 0 }
        (diff 0) diff).1.scan.acc.tx.ring = ms ∧
      ms.flatMap MemMsg.lineNos = [0, 1, 512] ∧ Marked true ms := by
  intro d diff
  have hd : d.Wf := ⟨⟨1, rfl⟩, by decide, ⟨1, rfl⟩, by decide⟩
  have hdue : dueLines d 1 diff = [512] := by decide +kernel
  obtain ⟨⟨ms, hring, hlines, -, hmark, -⟩, -⟩ := emission_exact d hd (by decide) 1 le_rfl
    (by decide) (fun _ => 7) (fun _ => 0) {} diff
  rw [hdue] at hlines hmark
  refine ⟨hd, by decide, ms, ?_, hlines, hmark (by simp)⟩
  exact hring

end Tasvir
