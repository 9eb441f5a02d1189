import Mathlib.Tactic
import Tasvir.AgedLogs
import Tasvir.OwnerNode

/-! The four diff logs of an area refine logs of decreasing age, so an external
sync that skips a log skips nothing a subscriber still needs. -/
namespace Tasvir
open RunLength AgedLogs

/-- The diff logs as sets of lines of the area. -/
def AreaLogs.abs (d : AreaDesc) (a : AreaLogs) : Logs ℕ :=
  ⟨fun k => {l | l < d.offsetLogEnd/64 ∧ lineBit (a.diff k) l = true},
    fun k => (a.info k).versionEnd⟩

theorem logs_ext {L L' : Logs ℕ} (h1 : ∀ k x, x ∈ L.bits k ↔ x ∈ L'.bits k)
    (h2 : ∀ k, L.upTo k = L'.upTo k) : L = L' := by
  cases L with
  | mk b u =>
    cases L' with
    | mk b' u' =>
      congr
      · funext k
        ext x
        exact h1 k x
      · funext k
        exact h2 k

section
variable {d : AreaDesc} (hd : d.Wf)
include hd

/-- Moving the units of log `i` to log `i+1` with its version ages the logs. -/
theorem abs_move (a a' : AreaLogs) (i : ℕ)
    (hi : a'.diff i = cleared (a.diff i) 0 (d.offsetLogEnd/4096))
    (hi1 : ∀ l < d.offsetLogEnd/64, lineBit (a'.diff (i+1)) l =
      (lineBit (a.diff i) l || lineBit (a.diff (i+1)) l))
    (ho : ∀ k, k ≠ i → k ≠ i+1 → a'.diff k = a.diff k)
    (hv : ∀ k, (a'.info k).versionEnd =
      if k = i+1 then (a.info i).versionEnd else (a.info k).versionEnd) :
    a'.abs d = (a.abs d).age i := by
  obtain ⟨b, hb⟩ := hd.end_aligned
  apply logs_ext
  · intro k l
    simp only [AreaLogs.abs, Logs.age]
    by_cases h1 : k = i+1
    · subst h1
      simp only [Function.update_self, Set.mem_ofPred_eq, Set.mem_union]
      constructor
      · rintro ⟨hl, hbit⟩
        rw [hi1 l hl, Bool.or_eq_true] at hbit
        exact hbit.imp (fun h => ⟨hl, h⟩) (fun h => ⟨hl, h⟩)
      · rintro (⟨hl, hbit⟩ | ⟨hl, hbit⟩)
        · exact ⟨hl, by rw [hi1 l hl, hbit, Bool.true_or]⟩
        · exact ⟨hl, by rw [hi1 l hl, hbit, Bool.or_true]⟩
    · rw [Function.update_of_ne h1]
      by_cases h0 : k = i
      · subst h0
        rw [Function.update_self, Set.mem_empty_iff_false, iff_false, hi, Set.mem_ofPred_eq]
        rintro ⟨hl, hbit⟩
        rw [lineBit_cleared, if_pos (by omega)] at hbit
        exact Bool.noConfusion hbit
      · rw [Function.update_of_ne h0, ho k h0 h1]
  · intro k
    simp only [AreaLogs.abs, Logs.age, hv k]
    by_cases h1 : k = i+1
    · rw [if_pos h1, h1, Function.update_self]
    · rw [if_neg h1, Function.update_of_ne h1]

theorem abs_rotateLog (timeUs : ℕ) (a : AreaLogs) (i : ℕ) :
    (rotateLog d timeUs a i).abs d = a.abs d ∨
    (rotateLog d timeUs a i).abs d = (a.abs d).age i := by
  obtain ⟨b, hb⟩ := hd.end_aligned
  rw [rotateLog]
  simp only
  split_ifs with hc
  · right
    rw [rotateGroups_spec, show 0+8*((d.offsetLogEnd/4096+7)/8) = d.offsetLogEnd/4096 from by omega]
    apply abs_move hd
    · simp only [Function.update_of_ne (show i ≠ i+1 from by omega), Function.update_self]
    · intro l hl
      simp only [Function.update_self, lineBit]
      rw [if_pos (by omega), BitVec.getMsbD_or]
    · intro k h0 h1
      simp only [Function.update_of_ne h1, Function.update_of_ne h0]
    · intro k
      by_cases h1 : k = i+1
      · subst h1
        rw [if_pos rfl]
        simp only [Function.update_self]
      · rw [if_neg h1]
        by_cases h0 : k = i
        · subst h0
          simp only [Function.update_of_ne h1, Function.update_self]
        · simp only [Function.update_of_ne h1, Function.update_of_ne h0]
  · exact Or.inl rfl

theorem covered_rotateLogs {M : ℕ → Set ℕ} (timeUs : ℕ) (a : AreaLogs)
    (h : Covered 4 M (a.abs d)) : Covered 4 M ((rotateLogs d timeUs a).abs d) := by
  have hstep (a : AreaLogs) (i : ℕ) (hi : i+1 < 4) (h : Covered 4 M (a.abs d)) :
      Covered 4 M ((rotateLog d timeUs a i).abs d) := by
    rcases abs_rotateLog hd timeUs a i with he | he
    · rw [he]
      exact h
    · rw [he]
      exact h.age i hi
  exact hstep _ 1 (by norm_num) (hstep _ 2 (by norm_num) h)

/-- The bytes a call reports are zero exactly when no selected line is set. -/
theorem syncParseLog_bytes_zero (e : ParseEnv) (he : e.Wf) (c : SyncCtx) (log : Words)
    (diff : ℕ → Words) :
    (syncParseLog e 0 d.offsetLogEnd c log diff).2 = 0 ↔
      ∀ l < d.offsetLogEnd/64, lineBit (merged e log diff) l = false := by
  obtain ⟨-, -, hbytes⟩ := syncParseLog_logs e he d.offsetLogEnd hd.end_aligned c log diff
  obtain ⟨b, hb⟩ := hd.end_aligned
  rw [hbytes, Nat.mul_eq_zero, or_iff_left (by norm_num), List.count_eq_zero]
  constructor
  · intro hno l hl
    rw [← Bool.not_eq_true]
    intro hset
    apply hno
    apply List.mem_of_getElem? (i := l)
    rw [getElem?_unitBits]
    exact ⟨by omega, by rwa [Nat.zero_mul, Nat.zero_add]⟩
  · intro hclear hmem
    obtain ⟨i, hi⟩ := List.mem_iff_getElem?.mp hmem
    obtain ⟨hlt, hset⟩ := (getElem?_unitBits _ _ _ _).mp hi
    rw [Nat.zero_mul, Nat.zero_add, hclear i (by omega)] at hset
    exact Bool.noConfusion hset

theorem covered_external {M : ℕ → Set ℕ} (e : ExtCall) (he : e.d = d) (c : SyncCtx)
    (a : AreaLogs) (h : Covered 4 M (a.abs d)) :
    Covered 4 M ((syncExternalArea e c a).2.1.abs d) := by
  subst he
  rcases syncExternalArea_cases e c a with ⟨-, hr⟩ | ⟨-, -, hr⟩ | ⟨-, hp, hr⟩
  · rw [hr]
    exact h
  · rw [hr]
    exact h
  · rw [hr]
    have hwf := externalEnv_wf e a.info hp
    obtain ⟨hlog, hdiff, -⟩ := syncParseLog_logs ⟨e.d, e.pivot a.info, some 1⟩ hwf
      e.d.offsetLogEnd hd.end_aligned { c with tx := { c.tx with lastSyncExtBytes := 0 } }
      (a.diff 0) a.diff
    have hzero := syncParseLog_bytes_zero hd ⟨e.d, e.pivot a.info, some 1⟩ hwf
      { c with tx := { c.tx with lastSyncExtBytes := 0 } } (a.diff 0) a.diff
    generalize syncParseLog ⟨e.d, e.pivot a.info, some 1⟩ 0 e.d.offsetLogEnd
      { c with tx := { c.tx with lastSyncExtBytes := 0 } } (a.diff 0) a.diff = r at *
    obtain ⟨b, hb⟩ := hd.end_aligned
    have hone : ∀ l < e.d.offsetLogEnd/64, lineBit (r.1.diff 1) l =
        (lineBit (a.diff 0) l || lineBit (a.diff 1) l) := by
      intro l hl
      rw [hdiff]
      simp only [absorbed, Function.update_self, lineBit]
      rw [if_pos (by omega), BitVec.getMsbD_or, Bool.or_comm]
    have hother : ∀ k, k ≠ 1 → r.1.diff k = a.diff k := by
      intro k hk
      rw [hdiff]
      simp only [absorbed, Function.update_of_ne hk]
    by_cases hr2 : r.2 ≠ 0
    · simp only
      rw [if_pos hr2]
      apply covered_rotateLogs hd
      have hage := abs_move hd a (handOver { a with
        lastSyncExtUs := e.tdataTimeUs, diff := Function.update r.1.diff 0 r.1.log }) 0
        (by simp only [handOver, Function.update_self, hlog]) ?_ ?_ ?_
      · rw [hage]
        exact h.age 0 (by norm_num)
      · intro l hl
        simp only [handOver, Nat.zero_add, Function.update_of_ne (show 1 ≠ 0 from by omega)]
        exact hone l hl
      · intro k h0 h1
        simp only [handOver, Function.update_of_ne h0]
        exact hother k (by omega)
      · intro k
        by_cases h1 : k = 1
        · subst h1
          rw [if_pos rfl]
          simp only [handOver, Function.update_of_ne (show 1 ≠ 0 from by omega),
            Function.update_self]
        · rw [if_neg (by omega)]
          by_cases h0 : k = 0
          · subst h0
            simp only [handOver, Function.update_self]
          · simp only [handOver, Function.update_of_ne h0, Function.update_of_ne h1]
    · -- nothing was set below the pivot, so nothing has moved
      simp only
      rw [if_neg hr2]
      have hclear := hzero.mp (not_not.mp hr2)
      have hnone (l : ℕ) (hl : l < e.d.offsetLogEnd/64) : lineBit (a.diff 0) l = false := by
        rw [← Bool.not_eq_true]
        intro hset
        have hm := (lineBit_merged ⟨e.d, e.pivot a.info, some 1⟩ hp a.diff l).mpr ⟨0, hp, hset⟩
        rw [hclear l hl] at hm
        exact Bool.noConfusion hm
      have hsame : ({ a with
          lastSyncExtUs := e.tdataTimeUs
          diff := Function.update r.1.diff 0 r.1.log } : AreaLogs).abs e.d = a.abs e.d := by
        apply logs_ext
        · intro k l
          simp only [AreaLogs.abs, Set.mem_ofPred_eq]
          apply and_congr_right
          intro hl
          by_cases h0 : k = 0
          · subst h0
            rw [Function.update_self, hlog, lineBit_cleared, if_pos (by omega), hnone l hl]
          · rw [Function.update_of_ne h0]
            by_cases h1 : k = 1
            · subst h1
              rw [hone l hl, hnone l hl, Bool.false_or]
            · rw [hother k h1]
        · intro k
          rfl
      rw [hsame]
      exact h

end

/-- No 2^26 lines in a row, which make 4 GiB, are all set. -/
def ShortRuns (d : AreaDesc) (w : Words) : Prop :=
  ∀ a, a+2^26 ≤ d.offsetLogEnd/64 → ∃ i < 2^26, lineBit w (a+i) = false

/-- The logs that a call selects have only runs whose length in bytes fits 32 bits. -/
def ExtCall.Short (e : ExtCall) (a : AreaLogs) : Prop :=
  ShortRuns e.d (merged ⟨e.d, e.pivot a.info, some 1⟩ (a.diff 0) a.diff)

theorem fits_of_short (e : ParseEnv) (hd : e.d.Wf) (log : Words) (diff : ℕ → Words)
    (hs : ShortRuns e.d (merged e log diff)) (r : Run)
    (hr : r ∈ (chunkRuns e 0 e.d.offsetLogEnd log diff).allRuns) :
    r.2 < 2^26 ∧ (toItem r).Fits := by
  have hpos : 0 < r.2 := Scan.pos_of_mem_allRuns (Scan.init ((e.d.h+0)/64))
    (by simp [Scan.init]) _ r hr
  have hin (l : ℕ) (h1 : r.1 ≤ l) (h2 : l < r.1+r.2) := (covers_chunkRuns e 0 e.d.offsetLogEnd
    log diff hd.h_aligned (Nat.dvd_zero _) hd.end_aligned l).mp ⟨r, hr, h1, h2⟩
  have hlo := hin r.1 le_rfl (by omega)
  have hhi := hin (r.1+r.2-1) (by omega) (by omega)
  have hinside := hd.inside
  obtain ⟨a, ha⟩ := hd.h_aligned
  obtain ⟨b, hb⟩ := hd.end_aligned
  have hlt : r.2 < 2^26 := by
    by_contra hge
    obtain ⟨i, hi, hclear⟩ := hs (r.1-e.d.h/64) (by omega)
    have hset := (hin (r.1+i) (by omega) (by omega)).2.2
    rw [show r.1+i-e.d.h/64 = r.1-e.d.h/64+i from by omega, hclear] at hset
    exact Bool.noConfusion hset
  exact ⟨hlt, (fits_chunkRuns e 0 e.d.offsetLogEnd log diff hd.h_aligned (Nat.dvd_zero _)
    hd.end_aligned (by omega) r hr hlt).1⟩

/-- The root descriptor lies in front of every area. -/
theorem rootItems_foreign (d' : AreaDesc) {d : AreaDesc} (hd : d.Wf) :
    Foreign d (rootItems d') := by
  intro it h
  rw [rootItems] at h
  split_ifs at h
  · rw [List.mem_singleton.mp h]
    refine ⟨⟨by norm_num [rootDescLines], by norm_num [rootDescLines],
      by norm_num [rootDescLines]⟩, ?_⟩
    rintro x ⟨h1, -⟩ ⟨-, h2⟩
    obtain ⟨a, ha⟩ := hd.h_aligned
    have hpos := hd.h_pos
    simp only [SyncItem.run, rootDescLines] at h2
    omega
  · exact absurd h List.not_mem_nil

theorem Foreign.append {d : AreaDesc} {l l' : List SyncItem} (h : Foreign d l)
    (h' : Foreign d l') : Foreign d (l ++ l') := by
  intro it hit
  rcases List.mem_append.mp hit with hit | hit
  · exact h it hit
  · exact h' it hit

theorem Foreign.not_covers {d : AreaDesc} {l : List SyncItem} (h : Foreign d l) {x : ℕ}
    (hx : d.Has x) : ¬Covers (l.map SyncItem.run) x := by
  rintro ⟨r, hr, h1, h2⟩
  obtain ⟨it, hit, rfl⟩ := List.mem_map.mp hr
  exact (h it hit).2 x hx ⟨h1, h2⟩

section
variable (e : ExtCall) (hd : e.d.Wf) (c : SyncCtx) (a : AreaLogs)
include hd

/-- A call that selects a set line sends one marked stream: what was left in the
list, the root descriptor where it belongs, and exactly the selected lines. -/
theorem external_emits (hlist : Foreign e.d c.sl.l) (hp : e.passes a = true)
    (hs : e.Short a) (hset : ∃ l < e.d.offsetLogEnd/64, ∃ p < e.pivot a.info,
      lineBit (a.diff p) l = true) :
    ∃ ms rs, Sends e.d { c with tx := { c.tx with lastSyncExtBytes := 0 } }
        (syncExternalArea e c a).1 ms rs ∧ Marked true ms ∧
      (syncExternalArea e c a).1.sl.l = [] ∧ (syncExternalArea e c a).1.sl.changed = 0 ∧
      ∀ l, Covers rs l ↔ Covers ((c.sl.l ++ rootItems e.d).map SyncItem.run) l ∨
        (e.d.h/64 ≤ l ∧ l < e.d.h/64+e.d.offsetLogEnd/64 ∧
          ∃ p < e.pivot a.info, lineBit (a.diff p) (l-e.d.h/64) = true) := by
  obtain ⟨l, hl, p, hpl, hbit⟩ := hset
  rcases syncExternalArea_cases e c a with ⟨hn, -⟩ | ⟨-, h0, -⟩ | ⟨-, h1, hr⟩
  · rw [hp] at hn
    exact Bool.noConfusion hn
  · omega
  · rw [hr]
    have hwf := externalEnv_wf e a.info h1
    obtain ⟨b, hb⟩ := hd.end_aligned
    -- a set bit below the pivot is found, so the call flushes its list
    have hbytes : (syncParseLog ⟨e.d, e.pivot a.info, some 1⟩ 0 e.d.offsetLogEnd
        { c with tx := { c.tx with lastSyncExtBytes := 0 } } (a.diff 0) a.diff).2 ≠ 0 := by
      intro h0
      have hclear := (syncParseLog_bytes_zero hd _ hwf _ _ _).mp h0 l hl
      have hm := (lineBit_merged ⟨e.d, e.pivot a.info, some 1⟩ h1 a.diff l).mpr ⟨p, hpl, hbit⟩
      rw [hclear] at hm
      exact Bool.noConfusion hm
    have hfit := fits_of_short ⟨e.d, e.pivot a.info, some 1⟩ hd (a.diff 0) a.diff hs
    have hqueued : Foreign e.d (c.sl.l ++ rootItems e.d) :=
      hlist.append (rootItems_foreign e.d hd)
    obtain ⟨hnil, ms, hsend, hmark⟩ := syncParseLog_emits ⟨e.d, e.pivot a.info, some 1⟩ hwf h1
      e.d.offsetLogEnd hd.end_aligned { c with tx := { c.tx with lastSyncExtBytes := 0 } }
      (a.diff 0) a.diff hbytes (by
        intro it hit
        rcases List.mem_append.mp hit with hit | hit
        · exact (hqueued it hit).1
        · obtain ⟨r, hr, rfl⟩ := List.mem_map.mp hit
          exact (hfit r hr).2)
    obtain ⟨-, hreset⟩ := syncParseLog_appends ⟨e.d, e.pivot a.info, some 1⟩ hwf h1
      e.d.offsetLogEnd { c with tx := { c.tx with lastSyncExtBytes := 0 } } (a.diff 0) a.diff
    refine ⟨ms, _, hsend, hmark, hnil, (hreset hbytes).2, ?_⟩
    intro l
    rw [List.map_append, covers_append,
      covers_map_toItem _ (fun r hr => lt_trans (hfit r hr).1 (by norm_num)),
      covers_chunkRuns ⟨e.d, e.pivot a.info, some 1⟩ 0 e.d.offsetLogEnd (a.diff 0) a.diff
        hd.h_aligned (Nat.dvd_zero _) hd.end_aligned,
      ← lineBit_merged ⟨e.d, e.pivot a.info, some 1⟩ h1 a.diff]
    simp only [Nat.zero_div, Nat.zero_add, Nat.add_zero]

/-- A call that selects no set line sends nothing. -/
theorem external_quiet (hnone : e.passes a = true → ∀ l < e.d.offsetLogEnd/64,
      ∀ p < e.pivot a.info, lineBit (a.diff p) l = false) :
    (syncExternalArea e c a).1.tx.ring = c.tx.ring ∧
    (syncExternalArea e c a).1.sl.changed = c.sl.changed ∧
    ((syncExternalArea e c a).1.sl.l = c.sl.l ∨
      (syncExternalArea e c a).1.sl.l = c.sl.l ++ rootItems e.d) := by
  rcases syncExternalArea_cases e c a with ⟨-, hr⟩ | ⟨-, -, hr⟩ | ⟨hp, h1, hr⟩
  · rw [hr]
    exact ⟨rfl, rfl, Or.inl rfl⟩
  · rw [hr]
    exact ⟨rfl, rfl, Or.inl rfl⟩
  · rw [hr]
    have hwf := externalEnv_wf e a.info h1
    have hbytes := (syncParseLog_bytes_zero hd ⟨e.d, e.pivot a.info, some 1⟩ hwf
      { c with tx := { c.tx with lastSyncExtBytes := 0 } } (a.diff 0) a.diff).mpr (by
        intro l hl
        rw [← Bool.not_eq_true, lineBit_merged ⟨e.d, e.pivot a.info, some 1⟩ h1]
        rintro ⟨p, hpl, hbit⟩
        rw [hnone hp l hl p hpl] at hbit
        exact Bool.noConfusion hbit)
    have hquiet := syncParseLog_quiet ⟨e.d, e.pivot a.info, some 1⟩ hwf e.d.offsetLogEnd
      hd.end_aligned { c with tx := { c.tx with lastSyncExtBytes := 0 } } (a.diff 0) a.diff hbytes
    obtain ⟨-, -, htx⟩ := parseInit_frame ⟨e.d, e.pivot a.info, some 1⟩
      { c with tx := { c.tx with lastSyncExtBytes := 0 } }
    have hlist := parseInit_list ⟨e.d, e.pivot a.info, some 1⟩ h1
      { c with tx := { c.tx with lastSyncExtBytes := 0 } }
    simp only [hquiet]
    refine ⟨by rw [htx], ?_, Or.inr hlist⟩
    simp only [parseInit]
    split_ifs <;> rfl

/-- A call with short runs sends exactly the lines of the logs it selects. -/
theorem external_sends (hlist : Foreign e.d c.sl.l) (hp : e.passes a = true) (hs : e.Short a) :
    ∃ ms, (syncExternalArea e c a).1.tx.ring = c.tx.ring ++ ms ∧
      ∀ l < e.d.offsetLogEnd/64, (Covers (ms.map MemMsg.run) (e.d.h/64+l) ↔
        ∃ p < e.pivot a.info, lineBit (a.diff p) l = true) := by
  by_cases hset : ∃ l < e.d.offsetLogEnd/64, ∃ p < e.pivot a.info, lineBit (a.diff p) l = true
  · obtain ⟨ms, rs, hsend, -, -, -, hrs⟩ := external_emits e hd c a hlist hp hs hset
    refine ⟨ms, hsend.ring, ?_⟩
    intro l hl
    obtain ⟨b, hb⟩ := hd.end_aligned
    have hno : ¬Covers ((c.sl.l ++ rootItems e.d).map SyncItem.run) (e.d.h/64+l) :=
      (hlist.append (rootItems_foreign e.d hd)).not_covers ⟨by omega, by omega⟩
    rw [hsend.covers, hrs, or_iff_right hno, Nat.add_sub_cancel_left]
    exact ⟨fun h => h.2.2, fun h => ⟨by omega, by omega, h⟩⟩
  · have hnone : ∀ l < e.d.offsetLogEnd/64, ∀ p < e.pivot a.info, lineBit (a.diff p) l = false := by
      intro l hl p hpl
      rw [← Bool.not_eq_true]
      exact fun hbit => hset ⟨l, hl, p, hpl, hbit⟩
    refine ⟨[], ?_, ?_⟩
    · rw [(external_quiet e hd c a fun _ => hnone).1, List.append_nil]
    · intro l hl
      simp only [List.map_nil, covers_nil, false_iff]
      rintro ⟨p, hpl, hbit⟩
      rw [hnone l hl p hpl] at hbit
      exact Bool.noConfusion hbit

end

/-- Whatever a call does, it only sends messages of its area, and what it leaves
in the list stays clear of every area behind the root descriptor. -/
theorem external_frame (e : ExtCall) (he : 32768 ∣ e.d.offsetLogEnd) (c : SyncCtx) (a : AreaLogs) :
    Appends e.d c (syncExternalArea e c a).1 ∧
    ((syncExternalArea e c a).1.sl.l = c.sl.l ∨
      (syncExternalArea e c a).1.sl.l = c.sl.l ++ rootItems e.d ∨
      (syncExternalArea e c a).1.sl.l = []) := by
  rcases syncExternalArea_cases e c a with ⟨-, hr⟩ | ⟨-, -, hr⟩ | ⟨-, h1, hr⟩
  · rw [hr]
    exact ⟨Appends.refl _ _, Or.inl rfl⟩
  · rw [hr]
    exact ⟨Appends.refl _ c, Or.inl rfl⟩
  · rw [hr]
    have hwf := externalEnv_wf e a.info h1
    obtain ⟨happ, hempty⟩ := syncParseLog_appends ⟨e.d, e.pivot a.info, some 1⟩ hwf h1
      e.d.offsetLogEnd { c with tx := { c.tx with lastSyncExtBytes := 0 } } (a.diff 0) a.diff
    refine ⟨happ, Or.inr ?_⟩
    by_cases hb : (syncParseLog ⟨e.d, e.pivot a.info, some 1⟩ 0 e.d.offsetLogEnd
        { c with tx := { c.tx with lastSyncExtBytes := 0 } } (a.diff 0) a.diff).2 = 0
    · left
      rw [syncParseLog_quiet _ hwf _ he _ _ _ hb, parseInit_list _ h1]
    · exact Or.inr (hempty hb).1

end Tasvir
