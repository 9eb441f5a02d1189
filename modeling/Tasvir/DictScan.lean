import Mathlib.Tactic
import Mathlib.Data.BitVec
import Tasvir.ReverseCursor

/-! `dictScan`: the stateless iteration over a dict that may be changed, resized and rehashed
between two calls. -/
namespace Tasvir
open ReverseCursor

structure DictHt (E : Type) where
  table : ℕ → List E
  size : ℕ
  sizemask : BitVec 64
  used : ℕ

/-- `ht[0]` and `ht[1]`. -/
structure Dict (E : Type) where
  ht0 : DictHt E
  ht1 : DictHt E
  rehashidx : ℤ

variable {E : Type}

def dictIsRehashing (d : Dict E) : Bool := d.rehashidx ≠ -1

def dictSize (d : Dict E) : ℕ := d.ht0.used+d.ht1.used

/-- Swap neighbouring groups of `s` bits. -/
def swapBits (s : ℕ) (mask v : BitVec 64) : BitVec 64 := ((v >>> s) &&& mask) ||| ((v <<< s) &&& ~~~mask)

/-- The loop of `rev`. -/
def revLoop : ℕ → ℕ → BitVec 64 → BitVec 64 → BitVec 64
  | 0, _, _, v => v
  | fuel+1, s, mask, v =>
    let s := s/2
    if s = 0 then v
    else
      let mask := mask ^^^ (mask <<< s)
      revLoop fuel s mask (swapBits s mask v)

/-- Seven turns end the loop. -/
def rev (v : BitVec 64) : BitVec 64 := revLoop 7 64 (BitVec.allOnes 64) v

/-- Increment bits not covered by the smaller mask. -/
def nextExpansion (m0 v : BitVec 64) : BitVec 64 := (((v ||| m0)+1) &&& ~~~m0) ||| (v &&& m0)

/-- The loop over the buckets of the larger table; `none` when it does not end within the fuel. -/
def scanExpansions (t1 : DictHt E) (m0 m1 : BitVec 64) : ℕ → BitVec 64 → Option (List E×BitVec 64)
  | 0, _ => none
  | fuel+1, v =>
    let es := t1.table (v &&& m1).toNat
    let v := nextExpansion m0 v
    if v &&& (m0 ^^^ m1) ≠ 0 then
      (scanExpansions t1 m0 m1 fuel v).map fun r => (es ++ r.1, r.2)
    else some (es, v)

/-- Increment the reverse cursor. -/
def nextCursor (m0 v : BitVec 64) : BitVec 64 := rev (rev (v ||| ~~~m0)+1)

/-- Both tables, the smaller one first. -/
def scanTables (t0 t1 : DictHt E) (v : BitVec 64) : Option (List E×BitVec 64) :=
  let m0 := t0.sizemask
  (scanExpansions t1 m0 t1.sizemask t1.size v).map fun r =>
    (t0.table (v &&& m0).toNat ++ r.1, nextCursor m0 r.2)

/-- The entries handed to `fn`, and the cursor for the next call. -/
def dictScan (d : Dict E) (v : BitVec 64) : Option (List E×BitVec 64) :=
  if dictSize d = 0 then some ([], 0)
  else if !dictIsRehashing d then
    let m0 := d.ht0.sizemask
    some (d.ht0.table (v &&& m0).toNat, nextCursor m0 v)
  else
    if d.ht0.size > d.ht1.size then scanTables d.ht1 d.ht0 v else scanTables d.ht0 d.ht1 v

/-- What every table of a dict is: a power of two of buckets, `used` entries, and each one in the
bucket of its hash value. -/
structure DictHt.Wf (hash : E → BitVec 32) (t : DictHt E) : Prop where
  exp : ∃ k < 64, t.size = 2^k ∧ t.sizemask = lowMask k
  used : t.used = ((List.range t.size).map fun b => (t.table b).length).sum
  place : ∀ {b e}, e ∈ t.table b → b = ((hash e).setWidth 64 &&& t.sizemask).toNat

structure Dict.Wf (hash : E → BitVec 32) (d : Dict E) : Prop where
  ht0 : d.ht0.Wf hash
  ht1 : if dictIsRehashing d then d.ht1.Wf hash else d.ht1.used = 0

/-- The entry is in one of the tables. -/
def Dict.Has (d : Dict E) (e : E) : Prop :=
  (∃ b, e ∈ d.ht0.table b) ∨ dictIsRehashing d ∧ ∃ b, e ∈ d.ht1.table b

/-- The number of buckets of the smaller table. -/
def Dict.smaller (d : Dict E) : ℕ :=
  if dictIsRehashing d then min d.ht0.size d.ht1.size else d.ht0.size

/-- Where `swapBits` takes a bit from. -/
def partner (s i : ℕ) : ℕ := if i/s%2 = 0 then i+s else i-s

theorem getLsbD_swapBits {s : ℕ} {mask v : BitVec 64}
    (hmask : ∀ i < 64, mask.getLsbD i = decide (i/s%2 = 0)) {i : ℕ} (hi : i < 64) :
    (swapBits s mask v).getLsbD i = v.getLsbD (partner s i) := by
  rw [swapBits, BitVec.getLsbD_or, BitVec.getLsbD_and, BitVec.getLsbD_and, BitVec.getLsbD_not, hmask i hi,
    BitVec.getLsbD_ushiftRight, BitVec.getLsbD_shiftLeft, partner]
  by_cases hodd : i/s%2 = 0
  · simp [hodd, add_comm]
  · have hge : s ≤ i := by
      by_contra hlt
      rw [Nat.div_eq_of_lt (not_le.mp hlt)] at hodd
      exact hodd rfl
    simp [hodd, hi, hge]

theorem rev_swapBits (v : BitVec 64) :
    rev v = swapBits 1 0x5555555555555555 (swapBits 2 0x3333333333333333
      (swapBits 4 0x0f0f0f0f0f0f0f0f (swapBits 8 0x00ff00ff00ff00ff
        (swapBits 16 0x0000ffff0000ffff (swapBits 32 0x00000000ffffffff v))))) := rfl

theorem rev_eq (v : BitVec 64) : rev v = v.reverse := by
  have hlt : ∀ s ∈ [32, 16, 8, 4, 2, 1], ∀ i < 64, partner s i < 64 := by decide
  have hall : ∀ i < 64, partner 32 (partner 16 (partner 8 (partner 4 (partner 2 (partner 1 i))))) =
      63-i := by decide
  apply BitVec.eq_of_getLsbD_eq
  intro i hi
  have hi1 := hlt 1 (by decide) i hi
  have hi2 := hlt 2 (by decide) _ hi1
  have hi3 := hlt 4 (by decide) _ hi2
  have hi4 := hlt 8 (by decide) _ hi3
  have hi5 := hlt 16 (by decide) _ hi4
  rw [rev_swapBits, getLsbD_swapBits (by decide) hi, getLsbD_swapBits (by decide) hi1,
    getLsbD_swapBits (by decide) hi2, getLsbD_swapBits (by decide) hi3,
    getLsbD_swapBits (by decide) hi4, getLsbD_swapBits (by decide) hi5, hall i hi,
    BitVec.getLsbD_reverse, BitVec.getMsbD]
  simp [hi]

theorem nextCursor_eq (k : ℕ) (v : BitVec 64) : nextCursor (lowMask k) v = advance k v := by
  rw [nextCursor, rev_eq, rev_eq, advance]

/-- `v` may be in any state above the smaller mask: only the bits below it count. -/
theorem nextCursor_congr {m0 v v' : BitVec 64} (h : v &&& m0 = v' &&& m0) :
    nextCursor m0 v = nextCursor m0 v' := by
  have hor (v : BitVec 64) : v ||| ~~~m0 = (v &&& m0) ||| ~~~m0 := by
    apply BitVec.eq_of_getLsbD_eq
    intro i hi
    simp only [BitVec.getLsbD_or, BitVec.getLsbD_and, BitVec.getLsbD_not, hi, decide_true, Bool.true_and]
    cases m0.getLsbD i <;> simp
  rw [nextCursor, nextCursor, hor v, h, ← hor v']

theorem toNat_nextExpansion {k : ℕ} (hk : k ≤ 64) (v : BitVec 64) :
    (nextExpansion (lowMask k) v).toNat = (v.toNat+2^k)%2^64 := by
  have hpow : 2^64 = 2^k*2^(64-k) := by rw [← pow_add, Nat.add_sub_cancel' hk]
  let x := (v ||| lowMask k)+1
  have hx : x.toNat = 2^k*((v.toNat/2^k+1)%2^(64-k)) := by
    calc x.toNat = (v.toNat/2^k+1)*2^k%2^64 := by
          rw [BitVec.toNat_add, ← toNat_or_lowMask hk]
          rfl
      _ = 2^k*((v.toNat/2^k+1)%2^(64-k)) := by rw [mul_comm, hpow, Nat.mul_mod_mul_left]
  have hhigh : x &&& ~~~lowMask k = x := by
    apply BitVec.eq_of_getLsbD_eq
    intro i hi
    rw [BitVec.getLsbD_and, BitVec.getLsbD_not, getLsbD_lowMask hi]
    by_cases hik : i < k
    · rw [← BitVec.testBit_toNat, hx, mul_comm, Nat.testBit_mul_two_pow]
      simp [hik]
    · simp [hi, hik]
  have hr : v.toNat%2^k < 2^k := Nat.mod_lt _ (by positivity)
  calc (nextExpansion (lowMask k) v).toNat = ((x &&& ~~~lowMask k) ||| (v &&& lowMask k)).toNat := rfl
    _ = 2^k*((v.toNat/2^k+1)%2^(64-k))+v.toNat%2^k := by
      rw [hhigh, BitVec.toNat_or, toNat_and_lowMask hk, hx, ← Nat.two_pow_add_eq_or_of_lt hr]
    _ = (v.toNat+2^k)%2^64 := by
      rw [hpow, Nat.mod_mul, Nat.add_mod_right, Nat.add_div_right _ (by positivity), add_comm]

section Expansions
variable {k0 k1 : ℕ}

theorem nextExpansion_low (hk : k0 ≤ 64) (v : BitVec 64) :
    nextExpansion (lowMask k0) v &&& lowMask k0 = v &&& lowMask k0 := by
  apply BitVec.eq_of_toNat_eq
  rw [toNat_and_lowMask hk, toNat_and_lowMask hk, toNat_nextExpansion hk,
    Nat.mod_mod_of_dvd _ (pow_dvd_pow 2 hk), Nat.add_mod_right]

theorem nextExpansion_high (h01 : k0 ≤ k1) (h1 : k1 ≤ 64) (v : BitVec 64) :
    (nextExpansion (lowMask k0) v &&& lowMask k1).toNat =
      ((v &&& lowMask k1).toNat+2^k0)%2^k1 := by
  rw [toNat_and_lowMask h1, toNat_and_lowMask h1, toNat_nextExpansion (h01.trans h1),
    Nat.mod_mod_of_dvd _ (pow_dvd_pow 2 h1), Nat.mod_add_mod]

theorem and_not_eq_zero_iff (m y : BitVec 64) : y &&& ~~~m = 0 ↔ y &&& m = y := by
  constructor
  · intro hy
    apply BitVec.eq_of_getLsbD_eq
    intro i hi
    have hbit := congrArg (fun x : BitVec 64 => x.getLsbD i) hy
    simp only [BitVec.getLsbD_and, BitVec.getLsbD_not, hi, decide_true, Bool.true_and] at hbit ⊢
    cases hyi : y.getLsbD i <;> simp_all
  · intro hy
    rw [← hy]
    apply BitVec.eq_of_getLsbD_eq
    intro i hi
    simp only [BitVec.getLsbD_and, BitVec.getLsbD_not]
    cases m.getLsbD i <;> simp

/-- The loop is back at the first expansion. -/
theorem and_xor_lowMask_iff (h01 : k0 ≤ k1) (h1 : k1 ≤ 64) (v : BitVec 64) :
    v &&& (lowMask k0 ^^^ lowMask k1) = 0 ↔ (v &&& lowMask k1).toNat < 2^k0 := by
  have hsplit : v &&& (lowMask k0 ^^^ lowMask k1) = (v &&& lowMask k1) &&& ~~~lowMask k0 := by
    apply BitVec.eq_of_getLsbD_eq
    intro i hi
    simp only [BitVec.getLsbD_and, BitVec.getLsbD_xor, BitVec.getLsbD_not, getLsbD_lowMask hi, hi,
      decide_true, Bool.true_and]
    by_cases hi0 : i < k0
    · simp [hi0, show i < k1 by omega]
    · simp [hi0]
  rw [hsplit, and_not_eq_zero_iff, BitVec.toNat_eq, toNat_and_lowMask (h01.trans h1)]
  constructor
  · intro heq
    rw [← heq]
    exact Nat.mod_lt _ (by positivity)
  · exact Nat.mod_eq_of_lt

/-- From the `j`-th expansion on, the loop visits the rest of them. -/
theorem scanExpansions_spec {t1 : DictHt E} (h01 : k0 ≤ k1) (h1 : k1 ≤ 64) {fuel : ℕ} {v : BitVec 64}
    {a j : ℕ} (ha : a < 2^k0) (hv : (v &&& lowMask k1).toNat = a+j*2^k0) (hj : j < 2^(k1-k0))
    (hfuel : 2^(k1-k0) ≤ fuel+j) :
    ∃ es v', scanExpansions t1 (lowMask k0) (lowMask k1) fuel v = some (es, v') ∧
      v' &&& lowMask k0 = v &&& lowMask k0 ∧
      ∀ e, e ∈ es ↔ ∃ i, j ≤ i ∧ i < 2^(k1-k0) ∧ e ∈ t1.table (a+i*2^k0) := by
  induction fuel generalizing v j with
  | zero => omega
  | succ fuel ih =>
    have hpow : 2^k1 = 2^(k1-k0)*2^k0 := by rw [← pow_add, Nat.sub_add_cancel h01]
    have hlow := nextExpansion_low (h01.trans h1) v
    have hhigh := nextExpansion_high h01 h1 v
    rw [hv, add_assoc, ← add_one_mul] at hhigh
    have hstop := and_xor_lowMask_iff h01 h1 (nextExpansion (lowMask k0) v)
    rw [scanExpansions, hv]
    rcases Nat.lt_or_ge (j+1) (2^(k1-k0)) with hlt | hge
    · have hle : (j+2)*2^k0 ≤ 2^k1 := hpow ▸ Nat.mul_le_mul_right _ hlt
      rw [show j+2 = j+1+1 from rfl, add_one_mul (j+1)] at hle
      rw [Nat.mod_eq_of_lt (by omega)] at hhigh
      have hgo : ¬nextExpansion (lowMask k0) v &&& (lowMask k0 ^^^ lowMask k1) = 0 := by
        rw [hstop, hhigh, add_one_mul]
        omega
      obtain ⟨es, v', hscan, hv', hes⟩ := ih hhigh hlt (by omega)
      refine ⟨t1.table (a+j*2^k0) ++ es, v', ?_, hv'.trans hlow, ?_⟩
      · simp only [hgo, ne_eq, not_false_eq_true, if_true, hscan, Option.map_some]
      · intro e
        rw [List.mem_append, hes e]
        constructor
        · rintro (he | ⟨i, hi, hi', he⟩)
          · exact ⟨j, le_rfl, hj, he⟩
          · exact ⟨i, by omega, hi', he⟩
        · rintro ⟨i, hi, hi', he⟩
          rcases hi.eq_or_lt with rfl | hi
          · exact .inl he
          · exact .inr ⟨i, hi, hi', he⟩
    · -- the last one
      have heq : j+1 = 2^(k1-k0) := by omega
      rw [heq, ← hpow, Nat.add_mod_right, Nat.mod_eq_of_lt
        (ha.trans_le (Nat.pow_le_pow_right (by norm_num) h01))] at hhigh
      have hend : nextExpansion (lowMask k0) v &&& (lowMask k0 ^^^ lowMask k1) = 0 := by
        rw [hstop, hhigh]
        exact ha
      refine ⟨t1.table (a+j*2^k0), nextExpansion (lowMask k0) v, ?_, hlow, ?_⟩
      · simp only [hend, ne_eq, not_true_eq_false, if_false]
      · intro e
        constructor
        · intro he
          exact ⟨j, le_rfl, hj, he⟩
        · rintro ⟨i, hi, hi', he⟩
          rwa [show j = i by omega]

end Expansions
section Calls
variable {hash : E → BitVec 32}

/-- The cursor of a call and the entry meet in the smaller table. -/
def Meet (hash : E → BitVec 32) (k : ℕ) (v : BitVec 64) (e : E) : Prop :=
  v &&& lowMask k = (hash e).setWidth 64 &&& lowMask k

theorem DictHt.Wf.mem_table {t : DictHt E} (h : t.Wf hash) {k : ℕ} (hmask : t.sizemask = lowMask k)
    (v : BitVec 64) (e : E) :
    e ∈ t.table (v &&& t.sizemask).toNat ↔ (∃ b, e ∈ t.table b) ∧ Meet hash k v e := by
  rw [Meet, ← hmask]
  constructor
  · intro he
    exact ⟨⟨_, he⟩, BitVec.eq_of_toNat_eq (h.place he)⟩
  · rintro ⟨⟨b, he⟩, hv⟩
    rw [hv, ← h.place he]
    exact he

theorem DictHt.Wf.used_pos {t : DictHt E} (h : t.Wf hash) {b : ℕ} {e : E} (he : e ∈ t.table b) :
    t.used ≠ 0 := by
  obtain ⟨k, hk, hsize, hmask⟩ := h.exp
  have hb : b < t.size := by
    rw [h.place he, hmask, toNat_and_lowMask hk.le, hsize]
    exact Nat.mod_lt _ (by positivity)
  rw [h.used]
  have hlen : 0 < (t.table b).length := List.length_pos_of_mem he
  have hmem : (t.table b).length ∈ (List.range t.size).map fun b => (t.table b).length :=
    List.mem_map_of_mem (List.mem_range.mpr hb)
  have := List.le_sum_of_mem hmem
  omega

theorem Dict.Wf.size_ne_zero {d : Dict E} (h : d.Wf hash) {e : E} (he : d.Has e) : dictSize d ≠ 0 := by
  rw [dictSize]
  rcases he with ⟨b, he⟩ | ⟨hre, b, he⟩
  · have := h.ht0.used_pos he
    omega
  · have h1 := h.ht1
    rw [if_pos hre] at h1
    have := h1.used_pos he
    omega

/-- One call on two tables. Without bits above the smaller mask it visits all the expansions of its
cursor in the larger table, otherwise those from the cursor on. -/
theorem scanTables_spec {t0 t1 : DictHt E} (h0 : t0.Wf hash) (h1 : t1.Wf hash)
    (hle : t0.size ≤ t1.size) :
    ∃ k < 64, t0.size = 2^k ∧ ∀ v, ∃ es, scanTables t0 t1 v = some (es, advance k v) ∧
      (∀ e ∈ es, ((∃ b, e ∈ t0.table b) ∨ ∃ b, e ∈ t1.table b) ∧ Meet hash k v e) ∧
      (v &&& ~~~lowMask k = 0 → ∀ e, ((∃ b, e ∈ t0.table b) ∨ ∃ b, e ∈ t1.table b) →
        Meet hash k v e → e ∈ es) := by
  obtain ⟨k0, hk0, hsize0, hmask0⟩ := h0.exp
  obtain ⟨k1, hk1, hsize1, hmask1⟩ := h1.exp
  have h01 : k0 ≤ k1 := by
    rw [hsize0, hsize1] at hle
    exact (Nat.pow_le_pow_iff_right (by norm_num)).mp hle
  refine ⟨k0, hk0, hsize0, ?_⟩
  intro v
  have hpow : 2^k1 = 2^k0*2^(k1-k0) := by rw [← pow_add, Nat.add_sub_cancel' h01]
  let y := (v &&& lowMask k1).toNat
  have hy : y = v.toNat%2^k1 := toNat_and_lowMask hk1.le v
  have hylow : y%2^k0 = v.toNat%2^k0 := by rw [hy, Nat.mod_mod_of_dvd _ (pow_dvd_pow 2 h01)]
  have hj : y/2^k0 < 2^(k1-k0) := by
    apply Nat.div_lt_of_lt_mul
    rw [← hpow, hy]
    exact Nat.mod_lt _ (by positivity)
  have hysum : y = y%2^k0+y/2^k0*2^k0 := by
    rw [mul_comm, add_comm]
    exact (Nat.div_add_mod y (2^k0)).symm
  have hfuel : 2^(k1-k0) ≤ t1.size+y/2^k0 := by
    rw [hsize1]
    exact (Nat.pow_le_pow_right (by norm_num) (Nat.sub_le k1 k0)).trans (Nat.le_add_right _ _)
  obtain ⟨es, v', hscan, hv', hes⟩ :=
    scanExpansions_spec h01 hk1.le (Nat.mod_lt y (by positivity)) hysum hj hfuel
  refine ⟨t0.table (v &&& t0.sizemask).toNat ++ es, ?_, ?_, ?_⟩
  · rw [scanTables, hmask0, hmask1, hscan, Option.map_some, nextCursor_congr hv', nextCursor_eq]
  · intro e he
    rcases List.mem_append.mp he with he | he
    · obtain ⟨hb, hmeet⟩ := (h0.mem_table hmask0 v e).mp he
      exact ⟨.inl hb, hmeet⟩
    · obtain ⟨i, -, -, he⟩ := (hes e).mp he
      refine ⟨.inr ⟨_, he⟩, BitVec.eq_of_toNat_eq ?_⟩
      have hplace := h1.place he
      rw [hmask1, toNat_and_lowMask hk1.le] at hplace
      rw [toNat_and_lowMask hk0.le, toNat_and_lowMask hk0.le, ← hylow, ← Nat.mod_mod_of_dvd
        ((hash e).setWidth 64).toNat (pow_dvd_pow 2 h01), ← hplace, Nat.add_mul_mod_self_right, Nat.mod_mod]
  · intro hv e he hmeet
    rw [List.mem_append]
    rcases he with hb | ⟨b, hb⟩
    · exact .inl ((h0.mem_table hmask0 v e).mpr ⟨hb, hmeet⟩)
    · -- the cursor is its own first expansion
      right
      have hvlt : v.toNat < 2^k0 := by
        rw [← (and_not_eq_zero_iff _ v).mp hv, toNat_and_lowMask hk0.le]
        exact Nat.mod_lt _ (by positivity)
      have hyv : y = v.toNat := by
        rw [hy, Nat.mod_eq_of_lt (hvlt.trans_le (Nat.pow_le_pow_right (by norm_num) h01))]
      have hplace := h1.place hb
      rw [hmask1, toNat_and_lowMask hk1.le] at hplace
      have hblow : b%2^k0 = y%2^k0 := by
        have hmod := congrArg BitVec.toNat hmeet
        rw [toNat_and_lowMask hk0.le, toNat_and_lowMask hk0.le] at hmod
        rw [hplace, Nat.mod_mod_of_dvd _ (pow_dvd_pow 2 h01), ← hmod, hylow]
      refine (hes e).mpr ⟨b/2^k0, ?_, ?_, ?_⟩
      · rw [hyv, Nat.div_eq_of_lt hvlt]
        exact Nat.zero_le _
      · apply Nat.div_lt_of_lt_mul
        rw [← hpow, hplace]
        exact Nat.mod_lt _ (by positivity)
      · rw [← hblow, add_comm, mul_comm, Nat.div_add_mod]
        exact hb

theorem smaller_eq_of_not {d : Dict E} (hre : dictIsRehashing d = false) :
    d.smaller = d.ht0.size := by
  rw [Dict.smaller, hre]
  rfl

/-- One call. -/
theorem dictScan_spec {d : Dict E} (h : d.Wf hash) (hne : dictSize d ≠ 0) :
    ∃ k < 64, d.smaller = 2^k ∧ ∀ v, ∃ es, dictScan d v = some (es, advance k v) ∧
      (∀ e ∈ es, d.Has e ∧ Meet hash k v e) ∧
      (dictIsRehashing d = false ∨ v &&& ~~~lowMask k = 0 → ∀ e, d.Has e → Meet hash k v e → e ∈ es) := by
  cases hre : dictIsRehashing d with
  | false =>
    obtain ⟨k, hk, hsize, hmask⟩ := h.ht0.exp
    have hhas : ∀ e, d.Has e ↔ ∃ b, e ∈ d.ht0.table b := by
      intro e
      simp [Dict.Has, hre]
    refine ⟨k, hk, (smaller_eq_of_not hre).trans hsize, ?_⟩
    intro v
    refine ⟨d.ht0.table (v &&& d.ht0.sizemask).toNat, ?_, ?_, ?_⟩
    · simp [dictScan, hne, hre, hmask, nextCursor_eq]
    · intro e he
      rw [hhas]
      exact (h.ht0.mem_table hmask v e).mp he
    · intro _ e he hmeet
      exact (h.ht0.mem_table hmask v e).mpr ⟨(hhas e).mp he, hmeet⟩
  | true =>
    have h1 := h.ht1
    rw [if_pos hre] at h1
    have hhas : ∀ e, d.Has e ↔ (∃ b, e ∈ d.ht0.table b) ∨ ∃ b, e ∈ d.ht1.table b := by
      intro e
      simp [Dict.Has, hre]
    simp only [hhas, Bool.true_eq_false, false_or, dictScan, hne, if_false, hre, Bool.not_true,
      Bool.false_eq_true, Dict.smaller, if_true]
    by_cases hlt : d.ht0.size > d.ht1.size
    · rw [min_eq_right hlt.le]
      simp only [if_pos hlt, or_comm (a := ∃ b, _ ∈ d.ht0.table b)]
      exact scanTables_spec h1 h.ht0 hlt.le
    · rw [min_eq_left (not_lt.mp hlt)]
      simp only [if_neg hlt]
      exact scanTables_spec h.ht0 h1 (not_lt.mp hlt)

end Calls

section Scan
variable {hash : E → BitVec 32} {ds : ℕ → Dict E} {vs : ℕ → BitVec 64} {es : ℕ → List E} {n : ℕ}

/-- The calls of a scan as steps of the cursor. -/
theorem scan_advance (hscan : ∀ i < n, dictScan (ds i) (vs i) = some (es i, vs (i+1)))
    (hwf : ∀ i < n, (ds i).Wf hash) (hne : ∀ i < n, dictSize (ds i) ≠ 0) {i : ℕ} (hi : i < n) :
    Nat.log 2 (ds i).smaller < 64 ∧ (ds i).smaller = 2^Nat.log 2 (ds i).smaller ∧
      vs (i+1) = advance (Nat.log 2 (ds i).smaller) (vs i) ∧
      (∀ e ∈ es i, (ds i).Has e ∧ Meet hash (Nat.log 2 (ds i).smaller) (vs i) e) ∧
      (dictIsRehashing (ds i) = false ∨ vs i &&& ~~~lowMask (Nat.log 2 (ds i).smaller) = 0 →
        ∀ e, (ds i).Has e → Meet hash (Nat.log 2 (ds i).smaller) (vs i) e → e ∈ es i) := by
  obtain ⟨k, hk, hsize, hspec⟩ := dictScan_spec (hwf i hi) (hne i hi)
  have hlog : Nat.log 2 (ds i).smaller = k := by rw [hsize, Nat.log_pow (by norm_num)]
  obtain ⟨es', hscan', hsound, hcomplete⟩ := hspec (vs i)
  rw [hscan i hi, Option.some.injEq, Prod.mk.injEq] at hscan'
  rw [hlog, hscan'.1]
  exact ⟨hk, hsize, hscan'.2, hsound, hcomplete⟩

/-- From cursor 0 to cursor 0 every entry that is in the dict all along is handed to `fn`, whatever
happens to the dict between two calls, its sizes included, as long as no rehashing call has a
smaller table below that of the call before it. -/
theorem dictScan_complete (hscan : ∀ i < n, dictScan (ds i) (vs i) = some (es i, vs (i+1)))
    (hwf : ∀ i < n, (ds i).Wf hash)
    (hgrow : ∀ i, i+1 < n → dictIsRehashing (ds (i+1)) → (ds i).smaller ≤ (ds (i+1)).smaller)
    (hn : 0 < n) (hstart : vs 0 = 0) (hend : vs n = 0) {e : E} (he : ∀ i < n, (ds i).Has e) :
    ∃ i < n, e ∈ es i := by
  have hne : ∀ i < n, dictSize (ds i) ≠ 0 := fun i hi => (hwf i hi).size_ne_zero (he i hi)
  have hcall {i : ℕ} (hi : i < n) := scan_advance hscan hwf hne hi
  obtain ⟨i, hi, hmeet⟩ := covered (fun i hi => (hcall hi).1.le) hstart
    (fun i hi => (hcall hi).2.2.1) hn hend ((hash e).setWidth 64)
  refine ⟨i, hi, (hcall hi).2.2.2.2 ?_ e (he i hi) hmeet⟩
  cases hre : dictIsRehashing (ds i) with
  | false => exact .inl rfl
  | true =>
    right
    cases i with
    | zero =>
      rw [hstart]
      exact BitVec.zero_and
    | succ i =>
      have hi' : i < n := by omega
      rw [(hcall hi').2.2.1]
      exact advance_and_not_lowMask (hcall hi').1.le (Nat.log_mono_right (hgrow i hi hre))

/-- Four buckets with two entries each, and eight empty ones. -/
def fourBuckets : DictHt ℕ := ⟨fun b => if b < 4 then [b, b+4] else [], 4, 3, 8⟩

def eightBuckets : DictHt ℕ := ⟨fun _ => [], 8, 7, 0⟩

/-- The rehashing from four buckets to eight starts behind the first call. -/
def growingDict (i : ℕ) : Dict ℕ := ⟨fourBuckets, eightBuckets, if i = 0 then -1 else 0⟩

def growingCursor (i : ℕ) : BitVec 64 := [0, 2, 1, 3, 0].getD i 0

def growingEntries (i : ℕ) : List ℕ := [[0, 4], [2, 6], [1, 5], [3, 7]].getD i []

theorem fourBuckets_wf : fourBuckets.Wf (BitVec.ofNat 32) := by
  refine ⟨⟨2, by decide, rfl, rfl⟩, by decide, ?_⟩
  intro b e he
  by_cases hb : b < 4
  · have he' : e = b ∨ e = b+4 := by simpa [fourBuckets, hb] using he
    interval_cases b <;> rcases he' with rfl | rfl <;> rfl
  · simp [fourBuckets, hb] at he

theorem growingDict_wf (i : ℕ) : (growingDict i).Wf (BitVec.ofNat 32) := by
  refine ⟨fourBuckets_wf, ?_⟩
  split
  next => exact ⟨⟨3, by decide, rfl, rfl⟩, rfl, fun he => absurd he List.not_mem_nil⟩
  next => rfl

theorem growingDict_scan :
    ∀ i < 4, dictScan (growingDict i) (growingCursor i) = some (growingEntries i, growingCursor (i+1)) := by
  decide

theorem growingDict_smaller (i : ℕ) : (growingDict i).smaller = 4 := by
  cases i <;> rfl

theorem dictScan_complete_growing : ∃ i < 4, 7 ∈ growingEntries i :=
  dictScan_complete growingDict_scan (fun i _ => growingDict_wf i)
    (fun i _ _ => by rw [growingDict_smaller, growingDict_smaller]) (by decide) rfl rfl
    (fun i _ => .inl ⟨3, by simp [growingDict, fourBuckets]⟩)

/-- The other way round, from eight buckets to two with a cursor that has come from the eight, the
loop leaves out the expansions below the cursor: entry 2 is handed to `fn` in no call. -/
example :
    let eight : DictHt ℕ := ⟨fun b => if b < 8 then [b] else [], 8, 7, 8⟩
    let two : DictHt ℕ := ⟨fun _ => [], 2, 1, 0⟩
    dictScan ⟨eight, two, -1⟩ 0 = some ([0], 4) ∧ dictScan ⟨eight, two, 0⟩ 4 = some ([4, 6], 1) ∧
      dictScan ⟨eight, two, 0⟩ 1 = some ([1, 3, 5, 7], 0) := by
  decide

/-- It comes to an end: with at most `2^K` buckets in the smaller table within `2^K` calls. -/
theorem dictScan_returns {K : ℕ} (hK : K ≤ 64)
    (hscan : ∀ i < 2^K, dictScan (ds i) (vs i) = some (es i, vs (i+1)))
    (hwf : ∀ i < 2^K, (ds i).Wf hash) (hsmall : ∀ i < 2^K, (ds i).smaller ≤ 2^K) :
    ∃ n, 0 < n ∧ n ≤ 2^K ∧ vs n = 0 := by
  by_cases hempty : ∃ i < 2^K, dictSize (ds i) = 0
  · -- an empty dict ends the scan at once
    obtain ⟨i, hi, hzero⟩ := hempty
    have hcall := hscan i hi
    rw [dictScan, if_pos hzero, Option.some.injEq, Prod.mk.injEq] at hcall
    exact ⟨i+1, by omega, by omega, hcall.2.symm⟩
  · have hne : ∀ i < 2^K, dictSize (ds i) ≠ 0 := fun i hi hzero => hempty ⟨i, hi, hzero⟩
    apply returns ?_ hK
      (fun i hi => (scan_advance hscan hwf hne hi).2.2.1)
    intro i hi
    calc Nat.log 2 (ds i).smaller ≤ Nat.log 2 (2^K) := Nat.log_mono_right (hsmall i hi)
      _ = K := Nat.log_pow (by norm_num) K

theorem dictScan_returns_growing : ∃ n, 0 < n ∧ n ≤ 2^2 ∧ growingCursor n = 0 :=
  dictScan_returns (by decide) growingDict_scan (fun i _ => growingDict_wf i) (by decide)

end Scan
end Tasvir
