import Mathlib.Tactic
import Tasvir.InternalParse

/-! The parser inside an external sync: the runs of an area leave the node as one
stream of memory messages with a running byte count, and only the message that
completes the emission is marked last. -/
namespace Tasvir
open RunLength

/-- The lines a message carries. -/
def MemMsg.run (m : MemMsg) : Run := (m.addr.getD 0/64, m.len/64)

/-- A message as `tasvir_msg_mem_generate` fills it in. -/
structure MemMsg.Fragment (d : AreaDesc) (v : ℕ) (ro : Mem) (prev : ℕ) (m : MemMsg) : Prop where
  d_eq : m.d = d
  version_eq : m.version = v
  prev_eq : m.prevBytes = prev
  lines : ∃ a n, m.addr = some (64*a) ∧ m.len = 64*n ∧ 0 < n ∧ ∀ k, m.line k = ro (64*a+k)

def bytesOf (ms : List MemMsg) : ℕ := (ms.map MemMsg.len).sum

theorem bytesOf_cons (m : MemMsg) (ms : List MemMsg) : bytesOf (m :: ms) = m.len+bytesOf ms := rfl

/-- Every message of the stream announces the bytes sent before it. -/
def Stream (d : AreaDesc) (v : ℕ) (ro : Mem) : ℕ → List MemMsg → Prop
  | _, [] => True
  | prev, m :: ms => m.Fragment d v ro prev ∧ Stream d v ro (prev+m.len) ms

theorem Stream.append {d : AreaDesc} {v : ℕ} {ro : Mem} {ms ns : List MemMsg} {prev : ℕ}
    (h1 : Stream d v ro prev ms) (h2 : Stream d v ro (prev+bytesOf ms) ns) :
    Stream d v ro prev (ms ++ ns) := by
  induction ms generalizing prev with
  | nil => exact h2
  | cons m ms ih =>
    refine ⟨h1.1, ih h1.2 ?_⟩
    rw [bytesOf, List.map_cons, List.sum_cons] at h2
    rwa [Nat.add_assoc]

theorem Stream.split {d : AreaDesc} {v : ℕ} {ro : Mem} {prev : ℕ} {ms ns : List MemMsg}
    (h : Stream d v ro prev (ms ++ ns)) :
    Stream d v ro prev ms ∧ Stream d v ro (prev+bytesOf ms) ns := by
  induction ms generalizing prev with
  | nil => exact ⟨trivial, h⟩
  | cons m ms ih =>
    obtain ⟨h1, h2⟩ := ih h.2
    refine ⟨⟨h.1, h1⟩, ?_⟩
    rwa [bytesOf_cons, ← Nat.add_assoc]

/-- The `last` marks: on no message, or on the final one only. -/
def Marked : Bool → List MemMsg → Prop
  | false, ms => ∀ m ∈ ms, m.last = false
  | true, ms => ∃ ms' m, ms = ms' ++ [m] ∧ (∀ m' ∈ ms', m'.last = false) ∧ m.last = true

theorem Marked.append {b : Bool} {ms ns : List MemMsg} (h1 : Marked false ms) (h2 : Marked b ns) :
    Marked b (ms ++ ns) := by
  cases b with
  | false =>
    intro m hm
    rcases List.mem_append.mp hm with hm | hm
    · exact h1 m hm
    · exact h2 m hm
  | true =>
    obtain ⟨ms', m, rfl, h3, h4⟩ := h2
    refine ⟨ms ++ ms', m, (List.append_assoc ..).symm, ?_, h4⟩
    intro m' hm'
    rcases List.mem_append.mp hm' with hm' | hm'
    · exact h1 m' hm'
    · exact h3 m' hm'

/-- The step from `c` to `c'` sent the messages `ms`, which carry the runs `rs`. -/
structure Sends (d : AreaDesc) (c c' : SyncCtx) (ms : List MemMsg) (rs : List Run) : Prop where
  ro_eq : c'.ro = c.ro
  rw_eq : c'.rw = c.rw
  ring : c'.tx.ring = c.tx.ring ++ ms
  bytes : c'.tx.lastSyncExtBytes = c.tx.lastSyncExtBytes+bytesOf ms
  stream : Stream d (c.ro (d.h+offVersion)) c.ro c.tx.lastSyncExtBytes ms
  covers : ∀ l, Covers (ms.map MemMsg.run) l ↔ Covers rs l

theorem Sends.refl (d : AreaDesc) (c : SyncCtx) : Sends d c c [] [] :=
  ⟨rfl, rfl, (List.append_nil _).symm, rfl, trivial, fun _ => Iff.rfl⟩

theorem Sends.trans {d : AreaDesc} {c₁ c₂ c₃ : SyncCtx} {ms ns : List MemMsg} {rs ts : List Run}
    (h1 : Sends d c₁ c₂ ms rs) (h2 : Sends d c₂ c₃ ns ts) :
    Sends d c₁ c₃ (ms ++ ns) (rs ++ ts) := by
  refine ⟨h2.ro_eq.trans h1.ro_eq, h2.rw_eq.trans h1.rw_eq, ?_, ?_, ?_, ?_⟩
  · rw [h2.ring, h1.ring, List.append_assoc]
  · rw [h2.bytes, h1.bytes, bytesOf, bytesOf, bytesOf, List.map_append, List.sum_append]
    omega
  · have hs := h2.stream
    rw [h1.ro_eq, h1.bytes] at hs
    exact h1.stream.append hs
  · intro l
    rw [List.map_append, covers_append, covers_append, h1.covers, h2.covers]

/-- Sending leaves both copies alone and only appends messages of the area. -/
def Appends (d : AreaDesc) (c c' : SyncCtx) : Prop :=
  c'.ro = c.ro ∧ c'.rw = c.rw ∧ ∃ ms, c'.tx.ring = c.tx.ring ++ ms ∧ ∀ m ∈ ms, m.d = d

theorem Appends.refl (d : AreaDesc) (c : SyncCtx) : Appends d c c :=
  ⟨rfl, rfl, [], (List.append_nil _).symm, fun _ h => absurd h List.not_mem_nil⟩

theorem Appends.trans {d : AreaDesc} {c₁ c₂ c₃ : SyncCtx} (h1 : Appends d c₁ c₂)
    (h2 : Appends d c₂ c₃) : Appends d c₁ c₃ := by
  obtain ⟨hro, hrw, ms, hring, hms⟩ := h1
  obtain ⟨hro', hrw', ns, hring', hns⟩ := h2
  refine ⟨hro'.trans hro, hrw'.trans hrw, ms ++ ns, ?_, ?_⟩
  · rw [hring', hring, List.append_assoc]
  · intro m hm
    rcases List.mem_append.mp hm with hm | hm
    · exact hms m hm
    · exact hns m hm

theorem msgMemLoop_appends (d : AreaDesc) (v : ℕ) (last : Bool) (k addr len prev i : ℕ)
    (c : SyncCtx) : Appends d c (msgMemLoop d v last k addr len prev i c) := by
  induction k generalizing addr len prev i c with
  | zero => exact Appends.refl d c
  | succ k ih =>
    rw [msgMemLoop]
    split_ifs
    · refine Appends.trans ?_ (ih _ _ _ _ _)
      exact ⟨rfl, rfl, [_], rfl, fun m hm => by rw [List.mem_singleton.mp hm]⟩
    · refine Appends.trans ?_ (ih _ _ _ _ _)
      exact ⟨rfl, rfl, [_], rfl, fun m hm => by rw [List.mem_singleton.mp hm]⟩

theorem processItems_appends (d : AreaDesc) (reset : Bool) (its : List SyncItem) (c : SyncCtx) :
    Appends d c (processItems d reset true its c) := by
  induction its generalizing c with
  | nil => exact Appends.refl d c
  | cons it its ih =>
    refine Appends.trans ?_ (ih _)
    exact msgMemLoop_appends d _ _ _ _ _ _ _ { c with tx := { c.tx with taken := c.tx.taken+32 } }

/-- One iteration of the loop: message `m` takes the first of `n` lines, at most 21. The loop goes
on from `c'`, with `i'` buffers of the batch in use. -/
structure MsgStep (d : AreaDesc) (v : ℕ) (last : Bool) (a n prev i : ℕ) (c : SyncCtx) (m : MemMsg)
    (i' : ℕ) (c' : SyncCtx) : Prop where
  fragment : m.Fragment d v c.ro prev
  run_eq : m.run = (a, min 21 n)
  len_eq : m.len = 64*min 21 n
  last_eq : m.last = (last && 64*(n-min 21 n) == 0)
  ro_eq : c'.ro = c.ro
  rw_eq : c'.rw = c.rw
  sl_eq : c'.sl = c.sl
  ring : c'.tx.ring = c.tx.ring ++ [m]
  returned : c'.tx.returned = c.tx.returned
  taken : i < 32 → i' < 32 ∧ c'.tx.taken+i' = c.tx.taken+i+1

theorem msgMemLoop_succ (d : AreaDesc) (v : ℕ) (last : Bool) (k a n prev i : ℕ) (c : SyncCtx)
    (hn : 0 < n) :
    ∃ m i' c', MsgStep d v last a n prev i c m i' c' ∧
      msgMemLoop d v last (k+1) (64*a) (64*n) prev i c =
        msgMemLoop d v last k (64*(a+min 21 n)) (64*(n-min 21 n)) (prev+64*min 21 n) i' c' := by
  obtain ⟨q, hq⟩ : ∃ q, q = min 21 n := ⟨_, rfl⟩
  have hmlen : min (64*21) (64*n) = 64*q := by omega
  have haddr : 64*a+64*q = 64*(a+q) := by omega
  have hlen : 64*n-64*q = 64*(n-q) := by omega
  obtain ⟨m, hm⟩ : ∃ m : MemMsg, m = { id := c.tx.nrMsgs%262144, d := d, version := v
                                       addr := some (64*a), len := 64*q
                                       last := last && 64*(n-q) == 0, prevBytes := prev
                                       line := fun k => c.ro (64*a+k) } := ⟨_, rfl⟩
  have hfrag : m.Fragment d v c.ro prev := by
    rw [hm]
    exact ⟨rfl, rfl, rfl, a, q, rfl, rfl, by omega, fun _ => rfl⟩
  have hrun : m.run = (a, q) := by
    rw [hm]
    simp only [MemMsg.run, Option.getD_some, Nat.mul_div_cancel_left _ (show 0 < 64 by norm_num)]
  rw [← hq, msgMemLoop]
  simp only [hmlen, haddr, hlen, ← hm]
  -- both branches go on from a context with the same copies and the message in the ring
  by_cases hi : i+1 ≥ 32
  · rw [if_pos hi]
    refine ⟨m, _, _, ?_, rfl⟩
    refine ⟨hfrag, hq ▸ hrun, ?_, ?_, rfl, rfl, rfl, rfl, rfl, ?_⟩
    · rw [hm, ← hq]
    · rw [hm, ← hq]
    · intro hlt
      dsimp only
      omega
  · rw [if_neg hi]
    refine ⟨m, _, _, ?_, rfl⟩
    refine ⟨hfrag, hq ▸ hrun, ?_, ?_, rfl, rfl, rfl, rfl, rfl, ?_⟩
    · rw [hm, ← hq]
    · rw [hm, ← hq]
    · intro hlt
      dsimp only
      omega

/-- The loop of `tasvir_msg_mem_generate` over `n` lines from line `a` on. -/
theorem msgMemLoop_sends (d : AreaDesc) (v : ℕ) (last : Bool) (k a n prev i : ℕ) (c : SyncCtx)
    (hk : k = (64*n+1343)/1344) :
    ∃ ms, (msgMemLoop d v last k (64*a) (64*n) prev i c).ro = c.ro ∧
      (msgMemLoop d v last k (64*a) (64*n) prev i c).rw = c.rw ∧
      (msgMemLoop d v last k (64*a) (64*n) prev i c).sl = c.sl ∧
      (msgMemLoop d v last k (64*a) (64*n) prev i c).tx.ring = c.tx.ring ++ ms ∧
      (msgMemLoop d v last k (64*a) (64*n) prev i c).tx.lastSyncExtBytes = prev+bytesOf ms ∧
      Stream d v c.ro prev ms ∧
      (∀ l, Covers (ms.map MemMsg.run) l ↔ a ≤ l ∧ l < a+n) ∧
      (0 < n → Marked last ms) ∧ (n = 0 → ms = []) := by
  induction k generalizing a n prev i c with
  | zero =>
    have hn : n = 0 := by omega
    subst hn
    refine ⟨[], rfl, rfl, rfl, (List.append_nil _).symm, rfl, trivial, ?_, ?_, fun _ => rfl⟩
    · intro l
      simp only [List.map_nil, covers_nil, false_iff]
      omega
    · intro h
      omega
  | succ k ih =>
    obtain ⟨m, i', c', hstep, hrec⟩ := msgMemLoop_succ d v last k a n prev i c (by omega)
    obtain ⟨q, hq⟩ : ∃ q, q = min 21 n := ⟨_, rfl⟩
    have hlen := hstep.len_eq
    have hrun := hstep.run_eq
    have hlast := hstep.last_eq
    rw [← hq] at hrec hlen hrun hlast
    obtain ⟨ms, h1, h2, h3, h4, h5, h6, h7, h8, h9⟩ :=
      ih (a+q) (n-q) (prev+64*q) i' c' (by omega)
    rw [hrec]
    refine ⟨m :: ms, h1.trans hstep.ro_eq, h2.trans hstep.rw_eq, h3.trans hstep.sl_eq, ?_, ?_,
      ⟨hstep.fragment, ?_⟩, ?_, ?_, ?_⟩
    · rw [h4, hstep.ring, List.append_assoc]
      rfl
    · rw [h5, bytesOf, bytesOf, List.map_cons, List.sum_cons, hlen]
      omega
    · rw [hstep.ro_eq] at h6
      rwa [hlen]
    · intro l
      rw [List.map_cons, covers_cons, h7, hrun]
      simp only
      omega
    · -- only the message with the last lines is marked, and only if the caller says so
      intro hn
      by_cases hdone : n-q = 0
      · have hnil := h9 hdone
        subst hnil
        rw [hdone] at hlast
        cases last with
        | false =>
          intro m' hm'
          rw [List.mem_singleton.mp hm', hlast]
          rfl
        | true => exact ⟨[], m, rfl, fun _ h => absurd h List.not_mem_nil, hlast⟩
      · have hopen : Marked false [m] := by
          intro m' hm'
          rw [List.mem_singleton.mp hm', hlast,
            show (64*(n-q) == 0) = false from beq_false_of_ne (by omega), Bool.and_false]
        exact hopen.append (h8 (by omega))
    · intro hn
      omega

/-- One representable item leaves as messages for exactly its lines. -/
theorem processItem_external (d : AreaDesc) (last : Bool) (c : SyncCtx) (it : SyncItem)
    (hf : it.Fits) :
    (processItem d true last c it).sl.l = c.sl.l ∧
    ∃ ms, Sends d c (processItem d true last c it) ms [it.run] ∧ Marked last ms := by
  obtain ⟨h0, h1, h2⟩ := hf
  have hoff : it.offsetScaled*64%2^64 = 64*it.offsetScaled := by omega
  have hlen : it.lenScaled*64%2^32 = 64*it.lenScaled := by omega
  obtain ⟨ms, hro, hrw, hsl, hring, hbytes, hstream, hcov, hmark, -⟩ :=
    msgMemLoop_sends d (c.ro (d.h+offVersion)) last ((64*it.lenScaled+1343)/1344)
      it.offsetScaled it.lenScaled c.tx.lastSyncExtBytes 0
      { c with tx := { c.tx with taken := c.tx.taken+32 } } rfl
  simp only [processItem, hoff, hlen, ↓reduceIte, msgMemGenerate]
  refine ⟨by rw [hsl], ms, ⟨hro, hrw, hring, hbytes, hstream, ?_⟩, hmark h0⟩
  intro l
  rw [hcov, covers_cons]
  simp [SyncItem.run, covers_nil]

/-- The items of a list leave in order; with `resetChanged` the last one
completes the emission. -/
theorem processItems_external (d : AreaDesc) (reset : Bool) (its : List SyncItem) (c : SyncCtx)
    (hf : ∀ it ∈ its, it.Fits) :
    ∃ ms, Sends d c (processItems d reset true its c) ms (its.map SyncItem.run) ∧
      (its ≠ [] → Marked reset ms) ∧ (its = [] → ms = []) := by
  induction its generalizing c with
  | nil => exact ⟨[], Sends.refl d c, fun h => absurd rfl h, fun _ => rfl⟩
  | cons it its ih =>
    obtain ⟨-, ms, hs, hm⟩ := processItem_external d (reset && its.isEmpty) c it
      (hf it List.mem_cons_self)
    obtain ⟨ns, hs', hm', hnil⟩ := ih (processItem d true (reset && its.isEmpty) c it)
      (fun j hj => hf j (List.mem_cons_of_mem _ hj))
    refine ⟨ms ++ ns, hs.trans hs', ?_, fun h => absurd h (List.cons_ne_nil _ _)⟩
    intro _
    by_cases hend : its = []
    · rw [hnil hend, List.append_nil]
      rw [hend, List.isEmpty_nil, Bool.and_true] at hm
      exact hm
    · rw [List.isEmpty_eq_false_iff.mpr hend, Bool.and_false] at hm
      exact hm.append (hm' hend)

/-- Items `rs` were added to the list of `c₀`; a prefix of the list has been sent
by flushes and the rest is still there. -/
def Sent (d : AreaDesc) (c₀ c : SyncCtx) (rs : List Run) : Prop :=
  (∀ it ∈ c₀.sl.l ++ rs.map toItem, it.Fits) →
    ∃ done ms, c₀.sl.l ++ rs.map toItem = done ++ c.sl.l ∧
      Sends d c₀ c ms (done.map SyncItem.run) ∧ Marked false ms

theorem sent_refl (d : AreaDesc) (c : SyncCtx) : Sent d c c [] := by
  intro _
  exact ⟨[], [], by simp, Sends.refl d c, fun _ h => absurd h List.not_mem_nil⟩

theorem sent_push (d : AreaDesc) (c₀ c : SyncCtx) (rs : List Run) (s n : ℕ)
    (h : Sent d c₀ c rs) : Sent d c₀ (pushItem c s n) (Scan.pushRun rs s n) := by
  intro hf
  have hsub : ∀ it ∈ c₀.sl.l ++ rs.map toItem, it.Fits := by
    intro it hit
    apply hf
    rcases List.mem_append.mp hit with hit | hit
    · exact List.mem_append_left _ hit
    · obtain ⟨r, hr, rfl⟩ := List.mem_map.mp hit
      exact List.mem_append_right _
        (List.mem_map_of_mem ((Scan.mem_pushRun rs s n r).mpr (Or.inl hr)))
  obtain ⟨done, ms, hl, hs, hm⟩ := h hsub
  refine ⟨done, ms, ?_, ⟨hs.ro_eq, hs.rw_eq, hs.ring, hs.bytes, hs.stream, hs.covers⟩, hm⟩
  by_cases hn : n = 0
  · simpa [Scan.pushRun, pushItem, hn] using hl
  · simp only [Scan.pushRun, pushItem, hn, ↓reduceIte, List.map_append, ← List.append_assoc, hl]
    rfl

theorem syncProcessChanges_external (d : AreaDesc) (reset : Bool) (c : SyncCtx)
    (hf : ∀ it ∈ c.sl.l, it.Fits) :
    ∃ ms, Sends d c (syncProcessChanges d reset true c).1 ms (c.sl.l.map SyncItem.run) ∧
      (c.sl.l ≠ [] → Marked reset ms) ∧ (c.sl.l = [] → ms = []) := by
  obtain ⟨ms, hs, hm, hnil⟩ := processItems_external d reset c.sl.l c hf
  exact ⟨ms, ⟨hs.ro_eq, hs.rw_eq, hs.ring, hs.bytes, hs.stream, hs.covers⟩, hm, hnil⟩

theorem sent_flush (d : AreaDesc) (c₀ c : SyncCtx) (rs : List Run) (h : Sent d c₀ c rs) :
    Sent d c₀ (syncProcessChanges d false true c).1 rs := by
  intro hf
  obtain ⟨done, ms, hl, hs, hm⟩ := h hf
  have hrest : ∀ it ∈ c.sl.l, it.Fits := by
    intro it hit
    apply hf
    rw [hl]
    exact List.mem_append_right _ hit
  obtain ⟨ns, hs', hm', hnil⟩ := syncProcessChanges_external d false c hrest
  refine ⟨done ++ c.sl.l, ms ++ ns, ?_, ?_, ?_⟩
  · rw [hl]
    exact (List.append_nil _).symm
  · rw [List.map_append]
    exact hs.trans hs'
  · by_cases hend : c.sl.l = []
    · rw [hnil hend, List.append_nil]
      exact hm
    · exact hm.append (hm' hend)

/-- The item an external sync of the root area starts with. -/
def rootItems (d : AreaDesc) : List SyncItem := if d.isRoot then [⟨0, rootDescLines⟩] else []

section
variable (e : ParseEnv) (he : e.Wf) (hp : 1 ≤ e.pivot) (len : ℕ) (hl : 32768 ∣ len)
variable (c : SyncCtx) (log : Words) (diff : ℕ → Words)
include he hl

/-- What a call does to the logs, and how many bytes it reports. -/
theorem syncParseLog_logs :
    (syncParseLog e 0 len c log diff).1.log = cleared log 0 (len/4096) ∧
    (syncParseLog e 0 len c log diff).1.diff = absorbed e log diff 0 (len/4096) ∧
    (syncParseLog e 0 len c log diff).2 =
      (unitBits (merged e log diff) 0 (len/4096)).count true*64 := by
  have hinit : Scan.Sim (fun _ _ => True) (parseInit e 0 c) (Scan.init ((e.d.h+0)/64)) :=
    ⟨trivial, rfl, rfl, rfl, rfl⟩
  obtain ⟨hlog, hdiff, hs⟩ := parseGroups_spec e he (fun _ _ _ _ h => h) (fun _ _ h => h)
    ((len/4096+7)/8) 0 ⟨parseInit e 0 c, log, diff⟩ _ hinit
  rw [show 8*((len/4096+7)/8) = len/4096 from by omega] at hlog hdiff hs
  rw [Nat.zero_add] at hlog hdiff
  refine ⟨hlog, hdiff, ?_⟩
  obtain ⟨-, htotal⟩ := lastBatch_sim (fun _ _ _ _ h => h) _ _ hs
  rw [Scan.total_read] at htotal
  simp only [Scan.init, Nat.zero_add] at htotal
  simp only [syncParseLog, Nat.zero_div]
  rw [← htotal]
  split_ifs <;> rfl

omit hl in
/-- Where no bit is set the scanner only moves on. -/
theorem parseGroups_zero (n li : ℕ) (p : ParseState)
    (hz : ∀ u, li ≤ u → u < li+8*n → merged e p.log p.diff u = 0#64) :
    (parseGroups e n li p).scan = { p.scan with zeros := p.scan.zeros+n*512 } := by
  induction n generalizing li p with
  | zero => rfl
  | succ n ih =>
    obtain ⟨hv, -⟩ := mergeLog_fold e he li p.log p.diff
    have hmask : testMask (load8 (merged e p.log p.diff) li) = 0 := by
      rw [testMask_eq_zero]
      intro i hi
      exact hz (li+i) (by omega) (by omega)
    have hscan : (parseGroup e li p).scan = { p.scan with zeros := p.scan.zeros+8*64 } := by
      simp only [parseGroup, hv, if_pos hmask]
    rw [parseGroups, ih, hscan]
    · simp only [Scan.mk.injEq, true_and, and_true]
      omega
    · intro u h1 h2
      rw [parseGroup_log e he, parseGroup_diff e he, merged_after e _ _ _ _ _ h1]
      exact hz u (by omega) (by omega)

omit he hl in
theorem external_eq_true (hp : 1 ≤ e.pivot) : e.external = true := by
  simp only [ParseEnv.external, bne_iff_ne]
  omega

include hp

omit he hl in
theorem parseInit_list : (parseInit e 0 c).acc.sl.l = c.sl.l ++ rootItems e.d := by
  simp only [parseInit, external_eq_true e hp, rootItems]
  by_cases hr : e.d.isRoot = true
  · rw [if_pos ⟨trivial, hr⟩, if_pos hr]
    rfl
  · rw [if_neg (fun h => hr h.2), if_neg hr, List.append_nil]

omit he hl hp in
theorem parseInit_frame : (parseInit e 0 c).acc.ro = c.ro ∧ (parseInit e 0 c).acc.rw = c.rw ∧
    (parseInit e 0 c).acc.tx = c.tx := by
  simp only [parseInit]
  split_ifs <;> exact ⟨rfl, rfl, rfl⟩

omit hl in
/-- Whatever the sizes, an external call only sends messages of its area, and
it leaves the list empty when it reports changes. -/
theorem syncParseLog_appends : Appends e.d c (syncParseLog e 0 len c log diff).1.scan.acc ∧
    ((syncParseLog e 0 len c log diff).2 ≠ 0 →
      (syncParseLog e 0 len c log diff).1.scan.acc.sl.l = [] ∧
      (syncParseLog e 0 len c log diff).1.scan.acc.sl.changed = 0) := by
  have hex := external_eq_true e hp
  obtain ⟨hro, hrw, htx⟩ := parseInit_frame e c
  have hstart : Appends e.d c (parseInit e 0 c).acc :=
    ⟨hro, hrw, [], by rw [htx, List.append_nil], fun _ h => absurd h List.not_mem_nil⟩
  have hinit : Scan.Sim (fun c' _ => Appends e.d c c') (parseInit e 0 c)
      (Scan.init ((e.d.h+0)/64)) := ⟨hstart, rfl, rfl, rfl, rfl⟩
  have hflush (reset : Bool) (c' : SyncCtx) (h : Appends e.d c c') :
      Appends e.d c (syncProcessChanges e.d reset e.external c').1 := by
    rw [hex]
    exact h.trans (processItems_appends e.d reset c'.sl.l c')
  obtain ⟨-, -, hs⟩ := parseGroups_spec e he (fun _ _ _ _ h => h)
    (fun c' _ h => hflush false c' h) ((len/4096+7)/8) 0 ⟨parseInit e 0 c, log, diff⟩ _ hinit
  obtain ⟨hlast, -⟩ := lastBatch_sim (R := fun c' _ => Appends e.d c c')
    (fun _ _ _ _ h => h) _ _ hs
  simp only [syncParseLog, Nat.zero_div]
  by_cases hne : e.external = true ∧ (lastBatch (parseGroups e ((len/4096+7)/8) 0
      ⟨parseInit e 0 c, log, diff⟩).scan).total ≠ 0
  · rw [if_pos hne]
    exact ⟨hflush true _ hlast, fun _ => ⟨rfl, rfl⟩⟩
  · rw [if_neg hne]
    refine ⟨hlast, fun h => absurd ⟨hex, ?_⟩ hne⟩
    exact fun h0 => h (by rw [h0])

omit hp in
/-- With no bit set nothing is sent; only the root descriptor stays queued. -/
theorem syncParseLog_quiet (hq : (syncParseLog e 0 len c log diff).2 = 0) :
    (syncParseLog e 0 len c log diff).1.scan.acc = (parseInit e 0 c).acc := by
  obtain ⟨-, -, hbytes⟩ := syncParseLog_logs e he len hl c log diff
  have hzero : ∀ u, 0 ≤ u → u < 0+8*((len/4096+7)/8) → merged e log diff u = 0#64 := by
    intro u _ hu
    apply BitVec.eq_of_getMsbD_eq
    intro i hi
    rw [BitVec.getMsbD_zero, ← Bool.not_eq_true]
    intro hset
    -- a set bit would be counted
    have hbit : (unitBits (merged e log diff) 0 (len/4096))[u*64+i]? = some true := by
      rw [getElem?_unitBits, lineBit]
      refine ⟨by omega, ?_⟩
      rw [show (0*64+(u*64+i))/64 = u from by omega, show (0*64+(u*64+i))%64 = i from by omega]
      exact hset
    have hpos : 0 < (unitBits (merged e log diff) 0 (len/4096)).count true :=
      List.count_pos_iff.mpr (List.mem_of_getElem? hbit)
    omega
  have hscan := parseGroups_zero e he ((len/4096+7)/8) 0 ⟨parseInit e 0 c, log, diff⟩ hzero
  have hones : (parseInit e 0 c).ones = 0 ∧ (parseInit e 0 c).total = 0 := ⟨rfl, rfl⟩
  simp only [syncParseLog, Nat.zero_div, hscan, lastBatch, hones.1, hones.2, ne_eq,
    not_true_eq_false, ↓reduceIte, and_false]

/-- The emission of an external sync. -/
theorem syncParseLog_emits (hq : (syncParseLog e 0 len c log diff).2 ≠ 0)
    (hf : ∀ it ∈ (c.sl.l ++ rootItems e.d) ++ (chunkRuns e 0 len log diff).allRuns.map toItem,
      it.Fits) :
    (syncParseLog e 0 len c log diff).1.scan.acc.sl.l = [] ∧
    ∃ ms, Sends e.d c (syncParseLog e 0 len c log diff).1.scan.acc ms
        (((c.sl.l ++ rootItems e.d) ++ (chunkRuns e 0 len log diff).allRuns.map toItem).map
          SyncItem.run) ∧ Marked true ms := by
  have hex := external_eq_true e hp
  obtain ⟨-, -, hbytes⟩ := syncParseLog_logs e he len hl c log diff
  have hinit : Scan.Sim (Sent e.d (parseInit e 0 c).acc) (parseInit e 0 c)
      (Scan.init ((e.d.h+0)/64)) := ⟨sent_refl _ _, rfl, rfl, rfl, rfl⟩
  have hflush (c' : SyncCtx) (rs : List Run) (h : Sent e.d (parseInit e 0 c).acc c' rs) :
      Sent e.d (parseInit e 0 c).acc (syncProcessChanges e.d false e.external c').1 rs := by
    rw [hex]
    exact sent_flush e.d _ c' rs h
  obtain ⟨-, -, hs⟩ := parseGroups_spec e he (sent_push e.d (parseInit e 0 c).acc) hflush
    ((len/4096+7)/8) 0 ⟨parseInit e 0 c, log, diff⟩ _ hinit
  rw [show 8*((len/4096+7)/8) = len/4096 from by omega] at hs
  obtain ⟨hsent, htotal⟩ := lastBatch_sim (sent_push e.d (parseInit e 0 c).acc) _ _ hs
  -- the last run is still held, so it is queued by the last batch
  have hheld := Scan.held_read Scan.pushRun (Scan.init ((e.d.h+0)/64)) (fun h => absurd rfl h)
    (unitBits (merged e log diff) 0 (len/4096))
  rw [Scan.total_read] at hheld htotal
  simp only [Scan.init, Nat.zero_add] at hheld htotal
  have hcount : (unitBits (merged e log diff) 0 (len/4096)).count true ≠ 0 := by
    intro h0
    rw [hbytes, h0] at hq
    exact hq rfl
  have hones := hheld hcount
  generalize hg : parseGroups e ((len/4096+7)/8) 0 ⟨parseInit e 0 c, log, diff⟩ = p at hs hsent htotal
  have hsones : p.scan.ones ≠ 0 := by
    rw [hs.ones]
    exact hones
  have hne : (lastBatch p.scan).acc.sl.l ≠ [] := by
    simp only [lastBatch, hsones, ne_eq, not_false_eq_true, ↓reduceIte, pushItem]
    exact List.append_ne_nil_of_right_ne_nil _ (List.cons_ne_nil _ _)
  obtain ⟨hro, hrw, htx⟩ := parseInit_frame e c
  rw [← parseInit_list e hp c] at hf ⊢
  obtain ⟨done, ms, hdone, hsend, hmark⟩ := hsent hf
  have hrest : ∀ it ∈ (lastBatch p.scan).acc.sl.l, it.Fits := by
    intro it hit
    apply hf
    rw [show (chunkRuns e 0 len log diff).allRuns = _ from rfl, chunkRuns]
    simp only [Nat.zero_div]
    rw [hdone]
    exact List.mem_append_right _ hit
  obtain ⟨ns, hsend', hmark', -⟩ :=
    syncProcessChanges_external e.d true (lastBatch p.scan).acc hrest
  have hacc : (syncParseLog e 0 len c log diff).1.scan.acc =
      (syncProcessChanges e.d true true (lastBatch p.scan).acc).1 := by
    simp only [syncParseLog, Nat.zero_div, hg]
    rw [if_pos ⟨hex, by rw [htotal]; exact hcount⟩, hex]
  rw [hacc]
  refine ⟨rfl, ms ++ ns, ?_, hmark.append (hmark' hne)⟩
  have hall := hsend.trans hsend'
  rw [← List.map_append, ← hdone] at hall
  refine ⟨hall.ro_eq.trans hro, hall.rw_eq.trans hrw, ?_, ?_, ?_, ?_⟩
  · rw [hall.ring, htx]
  · rw [hall.bytes, htx]
  · have h := hall.stream
    rw [hro, htx] at h
    exact h
  · intro l
    rw [hall.covers, chunkRuns]

end

end Tasvir
