import Mathlib.Tactic
import Tasvir.OwnerNode

/-! The byte counts of an internal sync: `has_changes` is set whenever a line of
an area below 4 GiB was logged, however its chunks are spread over threads. -/
namespace Tasvir
open RunLength

/-- What a thread has counted and what its list will still add to that. -/
def SyncList.weight (sl : SyncList) : ℤ :=
  sl.changed+64*((sl.l.map SyncItem.lenScaled).sum : ℕ)

def SyncEvent.thread : SyncEvent → ℕ
  | .parse t _ _ => t
  | .process t => t

/-- The logged lines of the area. -/
def dirtyLines (d : AreaDesc) (m : NodeMem) : ℕ :=
  (unitBits (fun u => m.log (data2log (addrData+d.h)+u)) 0 (d.offsetLogEnd/4096)).count true

/-- `changed` is an `int` and the lengths are scaled in 32 bits, so sums are right
modulo 2^32 only. -/
theorem changed_processItems (d : AreaDesc) (reset : Bool) (its : List SyncItem) (c : SyncCtx) :
    (processItems d reset false its c).sl.changed ≡
      c.sl.changed+64*((its.map SyncItem.lenScaled).sum : ℕ) [ZMOD 2^32] := by
  induction its generalizing c with
  | nil => simp [processItems]
  | cons it its ih =>
    have hone : (processItem d false (reset && its.isEmpty) c it).sl.changed ≡
        c.sl.changed+64*(it.lenScaled : ℤ) [ZMOD 2^32] := by
      have hlen : ((it.lenScaled*64%2^32 : ℕ) : ℤ) ≡ 64*(it.lenScaled : ℤ) [ZMOD 2^32] := by
        push_cast
        rw [mul_comm]
        exact Int.mod_modEq _ _
      have hb : (c.sl.changed+(it.lenScaled*64%2^32 : ℕ)).bmod (2^32) ≡
          c.sl.changed+(it.lenScaled*64%2^32 : ℕ) [ZMOD 2^32] := by
        rw [Int.ModEq]
        exact_mod_cast Int.bmod_emod
      exact hb.trans (hlen.add_left _)
    rw [processItems]
    refine (ih _).trans ?_
    rw [List.map_cons, List.sum_cons, Nat.cast_add, mul_add, ← add_assoc]
    exact hone.add_right _

section
variable (d : AreaDesc)

theorem weight_push (c : SyncCtx) (s n : ℕ) :
    (pushItem c s n).sl.weight ≡ c.sl.weight+64*(n : ℤ) [ZMOD 2^32] := by
  by_cases hn : n = 0
  · simp [pushItem, SyncList.weight, hn]
  · have hmod : ((n%2^32 : ℕ) : ℤ) ≡ (n : ℤ) [ZMOD 2^32] := by
      push_cast
      exact Int.mod_modEq _ _
    simp only [pushItem, SyncList.weight, hn, ↓reduceIte, List.map_append, List.map_cons,
      List.map_nil, List.sum_append, List.sum_cons, List.sum_nil, Nat.add_zero, Nat.cast_add,
      mul_add, ← add_assoc]
    exact (hmod.mul_left 64).add_left _

theorem weight_flush (c : SyncCtx) :
    (syncProcessChanges d false false c).1.sl.weight ≡ c.sl.weight [ZMOD 2^32] := by
  have h := changed_processItems d false c.sl.l c
  simpa only [syncProcessChanges, SyncList.weight, Bool.false_eq_true, ↓reduceIte, List.map_nil,
    List.sum_nil, Nat.cast_zero, mul_zero, add_zero] using h

/-- What pushing an item and flushing keep holds of the thread's list after a chunk, for runs
that have all logged lines of the chunk. -/
theorem parse_sim (isLocal : Bool) (m : NodeMem) (t o n : ℕ) (hn : 32768 ∣ n)
    {R : SyncCtx → List Run → Prop} (hnil : R { ro := m.ro, rw := m.rw, sl := m.lists t } [])
    (hpush : ∀ c rs s k, R c rs → R (pushItem c s k) (Scan.pushRun rs s k))
    (hflush : ∀ c rs, R c rs → R (syncProcessChanges d false false c).1 rs) :
    ∃ c rs, c.sl = (m.parse d isLocal t o n).lists t ∧ R c rs ∧ (rs.map Prod.snd).sum =
      (unitBits (fun u => m.log (data2log (addrData+d.h)+u)) (o/4096) (n/4096)).count true := by
  obtain ⟨-, -, hR⟩ := syncParseLog_sim (internalEnv d isLocal) (internalEnv_wf d isLocal) rfl o n
    hn { ro := m.ro, rw := m.rw, sl := m.lists t }
    (fun u => m.log (data2log (addrData+d.h)+u)) m.diff hnil hpush hflush
  refine ⟨_, _, ?_, hR, ?_⟩
  · simp only [NodeMem.parse, Function.update_self]
  · have hsum := Scan.sum_allRuns (Scan.init ((d.h+o)/64)) rfl
      (unitBits (fun u => m.log (data2log (addrData+d.h)+u)) (o/4096) (n/4096))
    simp only [Scan.init, Nat.zero_add] at hsum
    exact hsum

/-- A chunk adds the bytes of its logged lines to the thread's weight. -/
theorem weight_parse (isLocal : Bool) (m : NodeMem) (t o n : ℕ) (hn : 32768 ∣ n) :
    ((m.parse d isLocal t o n).lists t).weight ≡ (m.lists t).weight+
      64*((unitBits (fun u => m.log (data2log (addrData+d.h)+u)) (o/4096) (n/4096)).count true : ℕ)
      [ZMOD 2^32] := by
  -- the simulation relation: the runs found so far are in the weight
  let R (c : SyncCtx) (rs : List Run) : Prop :=
    c.sl.weight ≡ (m.lists t).weight+64*((rs.map Prod.snd).sum : ℕ) [ZMOD 2^32]
  have hnil : R { ro := m.ro, rw := m.rw, sl := m.lists t } [] := by
    simp [R]
  have hpush (c : SyncCtx) (rs : List Run) (s k : ℕ) (h : R c rs) :
      R (pushItem c s k) (Scan.pushRun rs s k) := by
    refine (weight_push c s k).trans ?_
    rw [Scan.sum_pushRun, Nat.cast_add, mul_add, ← add_assoc]
    exact h.add_right _
  have hflush (c : SyncCtx) (rs : List Run) (h : R c rs) :
      R (syncProcessChanges d false false c).1 rs := (weight_flush d c).trans h
  obtain ⟨c, rs, hlist, hR, hsum⟩ := parse_sim d isLocal m t o n hn hnil hpush hflush
  rw [← hlist, ← hsum]
  exact hR

theorem lists_parse_clean (isLocal : Bool) (m : NodeMem) (t o n : ℕ) (hn : 32768 ∣ n)
    (hl : (m.lists t).l = []) (hc : (m.lists t).changed = 0)
    (hclean : (unitBits (fun u => m.log (data2log (addrData+d.h)+u)) (o/4096)
      (n/4096)).count true = 0) :
    ((m.parse d isLocal t o n).lists t).l = [] ∧
    ((m.parse d isLocal t o n).lists t).changed = 0 := by
  -- the simulation relation: as long as no line was found the list is empty
  let R (c : SyncCtx) (rs : List Run) : Prop :=
    (rs.map Prod.snd).sum = 0 → c.sl.l = [] ∧ c.sl.changed = 0
  have hnil : R { ro := m.ro, rw := m.rw, sl := m.lists t } [] := fun _ => ⟨hl, hc⟩
  have hpush (c : SyncCtx) (rs : List Run) (s k : ℕ) (h : R c rs) :
      R (pushItem c s k) (Scan.pushRun rs s k) := by
    intro hz
    rw [Scan.sum_pushRun] at hz
    have hk : k = 0 := by omega
    obtain ⟨h1, h2⟩ := h (by omega)
    simp [pushItem, hk, h1, h2]
  have hflush (c : SyncCtx) (rs : List Run) (h : R c rs) :
      R (syncProcessChanges d false false c).1 rs := by
    intro hz
    obtain ⟨h1, h2⟩ := h hz
    simp [syncProcessChanges, h1, h2, processItems]
  obtain ⟨c, rs, hlist, hR, hsum⟩ := parse_sim d isLocal m t o n hn hnil hpush hflush
  rw [← hlist]
  exact hR (hsum.trans hclean)

theorem weight_process (m : NodeMem) (t : ℕ) :
    (updatedBy d m t : ℤ) ≡ (m.lists t).weight [ZMOD 2^32] ∧
    ((m.process d t).lists t).weight = 0 := by
  constructor
  · have h := changed_processItems d true (m.lists t).l { ro := m.ro, rw := m.rw, sl := m.lists t }
    refine Int.ModEq.trans ?_ h
    simp only [updatedBy, syncProcessChanges]
    rw [Int.toNat_of_nonneg (Int.emod_nonneg _ (by norm_num))]
    exact (Int.mod_modEq _ (2^64)).of_dvd (by norm_num)
  · simp only [NodeMem.process, syncProcessChanges, Function.update_self, SyncList.weight,
      ↓reduceIte, List.map_nil, List.sum_nil, Nat.cast_zero, mul_zero, add_zero]

/-- Clearing units takes their set bits out of the count. -/
theorem count_cleared (w : Words) (a b n : ℕ) (hab : a+b ≤ n) :
    (unitBits (cleared w a (a+b)) 0 n).count true+(unitBits w a b).count true =
      (unitBits w 0 n).count true := by
  obtain ⟨c, rfl⟩ := Nat.exists_eq_add_of_le hab
  have hfront : unitBits (cleared w a (a+b)) 0 a = unitBits w 0 a :=
    unitBits_congr _ _ _ _ (fun u _ h2 => if_neg (by omega))
  have hmid : unitBits (cleared w a (a+b)) a b = List.replicate (b*64) false :=
    unitBits_zeros _ _ _ (fun j hj => if_pos ⟨by omega, by omega⟩)
  have hback : unitBits (cleared w a (a+b)) (a+b) c = unitBits w (a+b) c :=
    unitBits_congr _ _ _ _ (fun u h1 _ => if_neg (by omega))
  have hnone : (List.replicate (b*64) false).count true = 0 :=
    List.count_eq_zero.mpr (fun h => Bool.noConfusion (List.eq_of_mem_replicate h))
  rw [unitBits_add _ 0 (a+b), unitBits_add _ 0 a, unitBits_add w 0 (a+b), unitBits_add w 0 a]
  simp only [Nat.zero_add, List.count_append, hfront, hmid, hback, hnone]
  omega

theorem dirtyLines_parse (isLocal : Bool) (m : NodeMem) (t o n : ℕ) (hn : 32768 ∣ n)
    (hon : o/4096+n/4096 ≤ d.offsetLogEnd/4096) :
    dirtyLines d (m.parse d isLocal t o n)+
      (unitBits (fun u => m.log (data2log (addrData+d.h)+u)) (o/4096) (n/4096)).count true =
      dirtyLines d m := by
  obtain ⟨hlog, -⟩ := syncParseLog_internal (internalEnv d isLocal)
    (internalEnv_wf d isLocal) rfl o n hn { ro := m.ro, rw := m.rw, sl := m.lists t }
    (fun u => m.log (data2log (addrData+d.h)+u)) m.diff
  have hafter : (fun u => (m.parse d isLocal t o n).log (data2log (addrData+d.h)+u)) =
      cleared (fun u => m.log (data2log (addrData+d.h)+u)) (o/4096) (o/4096+n/4096) := by
    funext u
    simp only [NodeMem.parse, hlog, Nat.le_add_right, ↓reduceIte, Nat.add_sub_cancel_left]
  rw [dirtyLines, hafter]
  exact count_cleared _ _ _ _ hon

/-- Run lemma: what the calls return, with the weights and logged lines that are
left, makes up for the weights and logged lines at the start. -/
theorem sum_syncUpdated (isLocal : Bool) (T : Finset ℕ) (evs : List SyncEvent)
    (hT : ∀ t, (∃ o n, .parse t o n ∈ evs) ∨ .process t ∈ evs → t ∈ T)
    (hal : ∀ t o n, .parse t o n ∈ evs → 32768 ∣ n ∧ o/4096+n/4096 ≤ d.offsetLogEnd/4096)
    (m : NodeMem) :
    ((syncUpdated d isLocal m evs).sum : ℤ)+
        (∑ t ∈ T, ((syncEvents d isLocal m evs).lists t).weight)+
        64*(dirtyLines d (syncEvents d isLocal m evs) : ℤ) ≡
      (∑ t ∈ T, (m.lists t).weight)+64*(dirtyLines d m : ℤ) [ZMOD 2^32] := by
  -- what is counted, queued or still logged is the same in front of and behind each call
  induction evs generalizing m with
  | nil => simp [syncUpdated, syncEvents]
  | cons ev evs ih =>
    have htail := ih (fun t h => hT t (h.imp
      (fun ⟨o, n, hx⟩ => ⟨o, n, List.mem_cons_of_mem _ hx⟩) (List.mem_cons_of_mem _)))
      (fun t o n hx => hal t o n (List.mem_cons_of_mem _ hx)) (syncEvent d isLocal m ev)
    cases ev with
    | parse t o n =>
      -- lines move from the log into the list of `t`
      obtain ⟨hn, hon⟩ := hal t o n List.mem_cons_self
      have ht : t ∈ T := hT t (Or.inl ⟨o, n, List.mem_cons_self⟩)
      have hw := weight_parse d isLocal m t o n hn
      have hdirty := dirtyLines_parse d isLocal m t o n hn hon
      have hother : ∑ u ∈ T.erase t, ((m.parse d isLocal t o n).lists u).weight =
          ∑ u ∈ T.erase t, (m.lists u).weight := by
        apply Finset.sum_congr rfl
        intro u hu
        simp only [NodeMem.parse, Function.update_of_ne (Finset.ne_of_mem_erase hu)]
      refine htail.trans ?_
      simp only [syncEvent]
      rw [← hdirty, Nat.cast_add]
      calc
        (∑ u ∈ T, ((m.parse d isLocal t o n).lists u).weight)+
            64*(dirtyLines d (m.parse d isLocal t o n) : ℤ)
          = ((m.parse d isLocal t o n).lists t).weight+((∑ u ∈ T.erase t, (m.lists u).weight)+
            64*(dirtyLines d (m.parse d isLocal t o n) : ℤ)) := by
            rw [← Finset.add_sum_erase T _ ht, hother, add_assoc]
        _ ≡ _ [ZMOD 2^32] := hw.add_right _
        _ = _ := by
            rw [← Finset.add_sum_erase T (fun u => (m.lists u).weight) ht]
            ring
    | process t =>
      -- the list of `t` is emptied, and `updated` is its weight
      have ht : t ∈ T := hT t (Or.inr List.mem_cons_self)
      obtain ⟨hval, hzero⟩ := weight_process d m t
      have hother : ∑ u ∈ T.erase t, ((m.process d t).lists u).weight =
          ∑ u ∈ T.erase t, (m.lists u).weight := by
        apply Finset.sum_congr rfl
        intro u hu
        simp only [NodeMem.process, Function.update_of_ne (Finset.ne_of_mem_erase hu)]
      have hlog : dirtyLines d (m.process d t) = dirtyLines d m := rfl
      have hsum : ∑ u ∈ T, ((m.process d t).lists u).weight =
          ∑ u ∈ T.erase t, (m.lists u).weight := by
        rw [← Finset.add_sum_erase T _ ht, hzero, hother, zero_add]
      simp only [syncEvent] at htail
      rw [hlog, hsum] at htail
      have hfold : syncEvents d isLocal m (.process t :: evs) =
        syncEvents d isLocal (m.process d t) evs := rfl
      rw [syncUpdated, List.sum_cons, Nat.cast_add, hfold, add_assoc, add_assoc]
      calc
        _ ≡ (m.lists t).weight+((∑ u ∈ T.erase t, (m.lists u).weight)+
            64*(dirtyLines d m : ℤ)) [ZMOD 2^32] := by
            rw [← add_assoc ((syncUpdated d isLocal (m.process d t) evs).sum : ℤ)]
            exact hval.add htail
        _ = _ := by rw [← add_assoc, Finset.add_sum_erase T (fun u => (m.lists u).weight) ht]

/-- Without a logged line and with empty lists, every call reports zero. -/
theorem syncUpdated_clean (isLocal : Bool) (evs : List SyncEvent)
    (hal : ∀ t o n, .parse t o n ∈ evs → 32768 ∣ n ∧ o/4096+n/4096 ≤ d.offsetLogEnd/4096)
    (m : NodeMem) (hlists : ∀ t, (m.lists t).l = [] ∧ (m.lists t).changed = 0)
    (hclean : dirtyLines d m = 0) : ∀ u ∈ syncUpdated d isLocal m evs, u = 0 := by
  induction evs generalizing m with
  | nil => exact fun u hu => absurd hu List.not_mem_nil
  | cons ev evs ih =>
    have htail := ih (fun t o n hx => hal t o n (List.mem_cons_of_mem _ hx))
    cases ev with
    | parse t o n =>
      obtain ⟨hn, hon⟩ := hal t o n List.mem_cons_self
      have hdirty := dirtyLines_parse d isLocal m t o n hn hon
      apply htail (m.parse d isLocal t o n) _ (by omega)
      intro u
      by_cases hu : u = t
      · rw [hu]
        exact lists_parse_clean d isLocal m t o n hn (hlists t).1 (hlists t).2 (by omega)
      · simp only [NodeMem.parse, Function.update_of_ne hu]
        exact hlists u
    | process t =>
      obtain ⟨h1, h2⟩ := hlists t
      have hzero : updatedBy d m t = 0 := by
        simp [updatedBy, syncProcessChanges, h1, h2, processItems]
      intro u hu
      rcases List.mem_cons.mp hu with hu | hu
      · rw [hu, hzero]
      · apply htail (m.process d t) _ hclean u hu
        intro v
        by_cases hv : v = t
        · simp [NodeMem.process, syncProcessChanges, hv]
        · simp only [NodeMem.process, Function.update_of_ne hv]
          exact hlists v

variable {d} (hd : d.Wf) (m : NodeMem)
include hd

theorem dirtyLines_eq_zero : dirtyLines d m = 0 ↔ ∀ l, d.Has l → lineBit m.log l = false := by
  obtain ⟨a, ha⟩ := hd.end_aligned
  rw [dirtyLines, List.count_eq_zero]
  constructor
  · intro hno l hl
    obtain ⟨h1, h2⟩ := hl
    rw [← Bool.not_eq_true]
    intro hset
    apply hno
    apply List.mem_of_getElem? (i := l-d.h/64)
    rw [getElem?_unitBits]
    refine ⟨by omega, ?_⟩
    rwa [Nat.zero_mul, Nat.zero_add, lineBit_base hd m 0 d.offsetLogEnd (Nat.dvd_zero _)
      hd.end_aligned (by omega) (by omega) l h1]
  · intro hclear hmem
    obtain ⟨i, hi⟩ := List.mem_iff_getElem?.mp hmem
    obtain ⟨hlt, hset⟩ := (getElem?_unitBits _ _ _ _).mp hi
    have hbase := lineBit_base hd m 0 d.offsetLogEnd (Nat.dvd_zero _)
      hd.end_aligned (by omega) (by omega) (d.h/64+i) (by omega)
    rw [Nat.add_sub_cancel_left] at hbase
    rw [Nat.zero_mul, Nat.zero_add, hbase, hclear _ ⟨by omega, by omega⟩] at hset
    exact Bool.noConfusion hset

omit hd in
theorem dirtyLines_le : 64*dirtyLines d m ≤ d.offsetLogEnd := by
  have hle : dirtyLines d m ≤ d.offsetLogEnd/4096*64 := by
    rw [dirtyLines, ← length_unitBits]
    exact List.count_le_length
  omega

/-- A logged line is never missed by `bytes_updated`, as long as the area and what
is left over in the daemon's list stay below 4 GiB together. -/
theorem clean_of_sum_zero (isLocal : Bool) (evs : List SyncEvent) (hev : Completes d evs)
    (hzero : ∀ t, (m.lists t).changed = 0) (hother : ∀ t, t ≠ 0 → (m.lists t).l = [])
    (hroom : 64*((m.lists 0).l.map SyncItem.lenScaled).sum+d.offsetLogEnd < 2^32)
    (hc : (syncUpdated d isLocal m evs).sum%2^64 = 0) (l : ℕ) (hl : d.Has l) :
    lineBit m.log l = false := by
  let T := (evs.map SyncEvent.thread).toFinset
  have hT : ∀ t, (∃ o n, .parse t o n ∈ evs) ∨ .process t ∈ evs → t ∈ T := by
    rintro t (⟨o, n, hx⟩ | hx)
    · exact List.mem_toFinset.mpr (List.mem_map_of_mem (f := SyncEvent.thread) hx)
    · exact List.mem_toFinset.mpr (List.mem_map_of_mem (f := SyncEvent.thread) hx)
  -- every thread that took part has closed its part
  have hdone : ∀ t ∈ T, ((syncEvents d isLocal m evs).lists t).weight = 0 := by
    intro t ht
    have hp : .process t ∈ evs := by
      obtain ⟨ev, hev', rfl⟩ := List.mem_map.mp (List.mem_toFinset.mp ht)
      cases ev with
      | parse t o n =>
        obtain ⟨p, q, hpq⟩ := List.append_of_mem hev'
        rw [hpq]
        exact List.mem_append_right _ (List.mem_cons_of_mem _ (hev.flushed p t o n q hpq))
      | process t => exact hev'
    obtain ⟨h1, h2⟩ := (lists_events d isLocal t evs
      (fun p o n q h => hev.flushed p t o n q h) m).1 hp
    rw [SyncList.weight, h1, h2]
    simp
  have hclean : dirtyLines d (syncEvents d isLocal m evs) = 0 :=
    (dirtyLines_eq_zero hd _).mpr (hev.log_clear hd isLocal m)
  have hsum := sum_syncUpdated d isLocal T evs hT (fun t o n hx => by
    obtain ⟨⟨a, ha⟩, ⟨b, hb⟩, hon, -⟩ := hev.aligned t o n hx
    exact ⟨⟨b, hb⟩, by omega⟩) m
  rw [Finset.sum_eq_zero hdone, hclean, Nat.cast_zero, mul_zero, add_zero, add_zero] at hsum
  -- no changes: the returned values add up to a multiple of 2^64
  have hret : ((syncUpdated d isLocal m evs).sum : ℤ) ≡ 0 [ZMOD 2^32] := by
    rw [Int.modEq_zero_iff_dvd]
    have h64 : 2^64 ∣ (syncUpdated d isLocal m evs).sum := Nat.dvd_of_mod_eq_zero hc
    exact_mod_cast (Nat.pow_dvd_pow 2 (show 32 ≤ 64 by norm_num)).trans h64
  have hstart : ∑ t ∈ T, (m.lists t).weight =
      if 0 ∈ T then ((64*((m.lists 0).l.map SyncItem.lenScaled).sum : ℕ) : ℤ) else 0 := by
    refine Eq.trans ?_ (Finset.sum_ite_eq' T 0
      (fun _ => ((64*((m.lists 0).l.map SyncItem.lenScaled).sum : ℕ) : ℤ)))
    apply Finset.sum_congr rfl
    intro t _
    split_ifs with ht
    · rw [SyncList.weight, hzero, ht, zero_add, Nat.cast_mul]
      rfl
    · rw [SyncList.weight, hzero, hother t ht]
      simp
  have hle := dirtyLines_le (d := d) m
  have hdvd := (Int.modEq_zero_iff_dvd.mp (hsum.symm.trans hret))
  rw [hstart] at hdvd
  have hnone : dirtyLines d m = 0 := by
    split_ifs at hdvd <;> omega
  exact (dirtyLines_eq_zero hd m).mp hnone l hl

end

end Tasvir
