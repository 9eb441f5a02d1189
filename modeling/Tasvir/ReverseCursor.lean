import Mathlib.Tactic
import Mathlib.Data.BitVec

/-! Cursors that count with the bits reversed, through tables whose sizes are powers of two and may
change from one step to the next. -/
namespace ReverseCursor
variable {w : ℕ}

/-- The place of a cursor, or of a hash value, in the order of the scan. -/
def rank (v : BitVec w) : ℕ := v.reverse.toNat

/-- The mask of a table of `2^k` buckets. -/
def lowMask (k : ℕ) : BitVec w := BitVec.ofNat w (2^k-1)

/-- The next cursor, behind a table of `2^k` buckets. -/
def advance (k : ℕ) (v : BitVec w) : BitVec w := ((v ||| ~~~lowMask k).reverse+1).reverse

variable {k : ℕ} {v h : BitVec w}

theorem rank_lt (v : BitVec w) : rank v < 2^w := v.reverse.isLt

theorem rank_eq_zero_iff : rank v = 0 ↔ v = 0 := by
  constructor
  · intro hv
    exact BitVec.reverse_eq_zero_iff.mp (BitVec.eq_of_toNat_eq hv)
  · intro hv
    rw [rank, BitVec.reverse_eq_zero_iff.mpr hv]
    rfl

theorem testBit_rank {i : ℕ} (hi : i < w) : (rank v).testBit i = v.getLsbD (w-1-i) := by
  rw [rank, BitVec.testBit_toNat, BitVec.getLsbD_reverse, BitVec.getMsbD]
  simp [hi]

theorem getLsbD_lowMask {i : ℕ} (hi : i < w) : (lowMask k : BitVec w).getLsbD i = decide (i < k) := by
  rw [lowMask, BitVec.getLsbD_ofNat, Nat.testBit_two_pow_sub_one]
  simp [hi]

theorem getLsbD_and_lowMask {i : ℕ} (hi : i < w) :
    (v &&& lowMask k).getLsbD i = (v.getLsbD i && decide (i < k)) := by
  rw [BitVec.getLsbD_and, getLsbD_lowMask hi]

theorem toNat_and_lowMask (hk : k ≤ w) (v : BitVec w) : (v &&& lowMask k).toNat = v.toNat%2^k := by
  have hlt : 2^k-1 < 2^w :=
    (Nat.sub_lt (by positivity) (by norm_num)).trans_le (Nat.pow_le_pow_right (by norm_num) hk)
  rw [BitVec.toNat_and, lowMask, BitVec.toNat_ofNat, Nat.mod_eq_of_lt hlt, Nat.and_two_pow_sub_one_eq_mod]

theorem toNat_or_lowMask (hk : k ≤ w) (v : BitVec w) :
    (v ||| lowMask k).toNat+1 = (v.toNat/2^k+1)*2^k := by
  have hlt : 2^k-1 < 2^k := Nat.sub_lt (by positivity) (by norm_num)
  have hor : (v ||| lowMask k).toNat = v.toNat/2^k*2^k+(2^k-1) := by
    apply Nat.eq_of_testBit_eq
    intro i
    rw [mul_comm, Nat.testBit_two_pow_mul_add _ hlt, BitVec.testBit_toNat, BitVec.getLsbD_or, lowMask,
      BitVec.getLsbD_ofNat, Nat.testBit_two_pow_sub_one, Nat.testBit_div_two_pow]
    split
    next hlow => simp [hlow, show i < w by omega]
    next hlow =>
      rw [show i-k+k = i by omega, BitVec.testBit_toNat]
      simp [hlow]
  rw [hor, add_one_mul]
  omega

/-- The bucket of a cursor is that of a hash value when their ranks agree in the first `k` bits. -/
theorem and_lowMask_eq_iff (hk : k ≤ w) :
    v &&& lowMask k = h &&& lowMask k ↔ rank v/2^(w-k) = rank h/2^(w-k) := by
  constructor
  · intro heq
    apply Nat.eq_of_testBit_eq
    intro i
    rw [Nat.testBit_div_two_pow, Nat.testBit_div_two_pow]
    by_cases hi : i+(w-k) < w
    · have hbit := congrArg (fun x : BitVec w => x.getLsbD (w-1-(i+(w-k)))) heq
      simp only [getLsbD_and_lowMask (show w-1-(i+(w-k)) < w by omega),
        show w-1-(i+(w-k)) < k by omega, decide_true, Bool.and_true] at hbit
      rw [testBit_rank hi, testBit_rank hi, hbit]
    · have hge : 2^w ≤ 2^(i+(w-k)) := Nat.pow_le_pow_right (by norm_num) (by omega)
      rw [Nat.testBit_lt_two_pow ((rank_lt v).trans_le hge),
        Nat.testBit_lt_two_pow ((rank_lt h).trans_le hge)]
  · intro heq
    apply BitVec.eq_of_getLsbD_eq
    intro i hi
    rw [getLsbD_and_lowMask hi, getLsbD_and_lowMask hi]
    by_cases hik : i < k
    · have hbit := congrArg (fun x : ℕ => x.testBit (k-1-i)) heq
      simp only [Nat.testBit_div_two_pow] at hbit
      rw [testBit_rank (by omega), testBit_rank (by omega),
        show w-1-(k-1-i+(w-k)) = i by omega] at hbit
      rw [hbit]
    · simp [hik]

theorem reverse_or_not_lowMask (hk : k ≤ w) :
    (v ||| ~~~lowMask k).reverse.toNat+1 = (rank v/2^(w-k)+1)*2^(w-k) := by
  have hor : (v ||| ~~~lowMask k).reverse.toNat = rank v/2^(w-k)*2^(w-k)+(2^(w-k)-1) := by
    have hlt : 2^(w-k)-1 < 2^(w-k) := Nat.sub_lt (by positivity) (by norm_num)
    apply Nat.eq_of_testBit_eq
    intro i
    rw [mul_comm, Nat.testBit_two_pow_mul_add _ hlt, BitVec.testBit_toNat, BitVec.getLsbD_reverse,
      Nat.testBit_div_two_pow, Nat.testBit_two_pow_sub_one, BitVec.getMsbD]
    by_cases hi : i < w
    · rw [BitVec.getLsbD_or, BitVec.getLsbD_not, getLsbD_lowMask (by omega)]
      split
      next hlow => simp [hi, hlow, show ¬w-1-i < k by omega, show w-1-i < w by omega]
      next hlow =>
        rw [show i-(w-k)+(w-k) = i by omega, testBit_rank hi]
        simp [hi, show w-1-i < k by omega]
    · have hge : 2^w ≤ 2^i := Nat.pow_le_pow_right (by norm_num) (by omega)
      rw [if_neg (show ¬i < w-k by omega), show i-(w-k)+(w-k) = i by omega,
        Nat.testBit_lt_two_pow ((rank_lt v).trans_le hge)]
      simp [hi]
  rw [hor, add_one_mul]
  have : 0 < 2^(w-k) := by positivity
  omega

/-- Where the next cursor stands: at the next multiple of `2^(w-k)`, or at the start again. -/
theorem rank_advance (hk : k ≤ w) : rank (advance k v) = (rank v/2^(w-k)+1)*2^(w-k)%2^w := by
  rw [rank, advance, BitVec.reverse_reverse_eq, BitVec.toNat_add, ← reverse_or_not_lowMask hk]
  simp

theorem advance_dvd (hk : k ≤ w) : 2^(w-k) ∣ rank (advance k v) := by
  rw [rank_advance hk]
  exact (Nat.dvd_mod_iff (pow_dvd_pow 2 (by omega))).mpr (dvd_mul_left _ _)

/-- Short of the end the next cursor is the next multiple. -/
theorem rank_advance_of_ne (hk : k ≤ w) (hne : advance k v ≠ 0) :
    rank (advance k v) = (rank v/2^(w-k)+1)*2^(w-k) := by
  have hle : (rank v/2^(w-k)+1)*2^(w-k) ≤ 2^w := by
    have hlt : rank v/2^(w-k) < 2^k := by
      apply Nat.div_lt_of_lt_mul
      rw [← pow_add, Nat.sub_add_cancel hk]
      exact rank_lt v
    calc (rank v/2^(w-k)+1)*2^(w-k) ≤ 2^k*2^(w-k) := Nat.mul_le_mul_right _ hlt
      _ = 2^w := by rw [← pow_add, Nat.add_sub_cancel' hk]
  have hadv := rank_advance (v := v) hk
  rcases hle.lt_or_eq with hlt | heq
  · rw [hadv, Nat.mod_eq_of_lt hlt]
  · rw [heq, Nat.mod_self] at hadv
    exact absurd (rank_eq_zero_iff.mp hadv) hne

theorem rank_of_advance_eq_zero (hk : k ≤ w) (hzero : advance k v = 0) :
    2^w ≤ (rank v/2^(w-k)+1)*2^(w-k) := by
  have hadv := rank_advance (v := v) hk
  rw [hzero, rank_eq_zero_iff.mpr rfl] at hadv
  exact Nat.le_of_dvd (by positivity) (Nat.dvd_of_mod_eq_zero hadv.symm)

/-- A cursor behind a table of `2^k` buckets has no bit above the mask of a larger table. -/
theorem advance_and_not_lowMask {k' : ℕ} (hk : k ≤ w) (hkk : k ≤ k') :
    advance k v &&& ~~~lowMask k' = 0 := by
  apply BitVec.eq_of_getLsbD_eq
  intro i hi
  rw [BitVec.getLsbD_and, BitVec.getLsbD_not, getLsbD_lowMask hi]
  by_cases hik : i < k'
  · simp [hik]
  · obtain ⟨c, hc⟩ := advance_dvd (v := v) hk
    have hbit := testBit_rank (v := advance k v) (i := w-1-i) (by omega)
    rw [show w-1-(w-1-i) = i by omega, hc, mul_comm, Nat.testBit_mul_two_pow] at hbit
    simp [← hbit, show ¬w-k ≤ w-1-i by omega]

section Scan
variable {cursor : ℕ → BitVec w} {size : ℕ → ℕ} {n : ℕ}

/-- Every rank below that of the cursor has had its bucket visited. -/
theorem covered_below (hsize : ∀ i < n, size i ≤ w) (h0 : cursor 0 = 0)
    (hnext : ∀ i < n, cursor (i+1) = advance (size i) (cursor i)) (hne : ∀ i < n, cursor (i+1) ≠ 0)
    (hh : rank h < rank (cursor n)) :
    ∃ i < n, cursor i &&& lowMask (size i) = h &&& lowMask (size i) := by
  induction n with
  | zero =>
    rw [h0, rank_eq_zero_iff.mpr rfl] at hh
    exact absurd hh (Nat.not_lt_zero _)
  | succ n ih =>
    rcases Nat.lt_or_ge (rank h) (rank (cursor n)) with hlt | hge
    · obtain ⟨i, hi, heq⟩ := ih (fun i hi => hsize i (by omega)) (fun i hi => hnext i (by omega))
        (fun i hi => hne i (by omega)) hlt
      exact ⟨i, by omega, heq⟩
    · refine ⟨n, by omega, (and_lowMask_eq_iff (hsize n (by omega))).mpr ?_⟩
      have hstep := hnext n (by omega)
      have hadv := rank_advance_of_ne (v := cursor n) (hsize n (by omega)) (hstep ▸ hne n (by omega))
      rw [hstep, hadv] at hh
      have hdiv : rank h/2^(w-size n) < rank (cursor n)/2^(w-size n)+1 := Nat.div_lt_of_lt_mul (by
        rwa [mul_comm])
      have := Nat.div_le_div_right (c := 2^(w-size n)) hge
      omega

/-- A scan that has come back to 0 has visited the bucket of every hash value. -/
theorem covered (hsize : ∀ i < n, size i ≤ w) (h0 : cursor 0 = 0)
    (hnext : ∀ i < n, cursor (i+1) = advance (size i) (cursor i)) (hn : 0 < n) (hend : cursor n = 0)
    (h : BitVec w) : ∃ i < n, cursor i &&& lowMask (size i) = h &&& lowMask (size i) := by
  classical
  -- the first time that it is back
  have hex : ∃ m, 0 < m ∧ cursor m = 0 := ⟨n, hn, hend⟩
  obtain ⟨hpos, hzero⟩ := Nat.find_spec hex
  have hle : Nat.find hex ≤ n := Nat.find_min' hex ⟨hn, hend⟩
  obtain ⟨m, hm⟩ : ∃ m, Nat.find hex = m+1 := ⟨Nat.find hex-1, by omega⟩
  rw [hm] at hzero hle
  have hne : ∀ i < m, cursor (i+1) ≠ 0 := fun i hi hz => Nat.find_min hex (by omega) ⟨by omega, hz⟩
  rcases Nat.lt_or_ge (rank h) (rank (cursor m)) with hlt | hge
  · obtain ⟨i, hi, heq⟩ := covered_below (fun i hi => hsize i (by omega)) h0
      (fun i hi => hnext i (by omega)) hne hlt
    exact ⟨i, by omega, heq⟩
  · refine ⟨m, by omega, (and_lowMask_eq_iff (hsize m (by omega))).mpr ?_⟩
    have hlast := rank_of_advance_eq_zero (hsize m (by omega)) ((hnext m (by omega)).symm.trans hzero)
    have hdiv : rank h/2^(w-size m) < rank (cursor m)/2^(w-size m)+1 := Nat.div_lt_of_lt_mul (by
      rw [mul_comm]
      exact (rank_lt h).trans_le hlast)
    have := Nat.div_le_div_right (c := 2^(w-size m)) hge
    omega

/-- With at most `2^K` buckets all along, it comes back within `2^K` steps. -/
theorem returns {K : ℕ} (hsize : ∀ i < 2^K, size i ≤ K) (hK : K ≤ w)
    (hnext : ∀ i < 2^K, cursor (i+1) = advance (size i) (cursor i)) :
    ∃ n, 0 < n ∧ n ≤ 2^K ∧ cursor n = 0 := by
  by_contra hno
  push Not at hno
  have hfar : ∀ n ≤ 2^K, n*2^(w-K) ≤ rank (cursor n) := by
    intro n hn
    induction n with
    | zero => simp
    | succ n ih =>
      have hne := hno (n+1) (by omega) hn
      have hk := (hsize n (by omega)).trans hK
      rw [hnext n (by omega)] at hne ⊢
      rw [rank_advance_of_ne hk hne]
      have hih := ih (by omega)
      obtain ⟨c, hc⟩ : 2^(w-K) ∣ 2^(w-size n) := pow_dvd_pow 2 (Nat.sub_le_sub_left (hsize n (by omega)) w)
      have hlt : rank (cursor n) < (rank (cursor n)/2^(w-size n)+1)*2^(w-size n) := by
        rw [mul_comm]
        exact Nat.lt_mul_div_succ _ (by positivity)
      -- both are multiples of the smallest stride, or the second one is
      have hmul : n < (rank (cursor n)/2^(w-size n)+1)*c := by
        by_contra hge
        push Not at hge
        have := Nat.mul_le_mul_right (2^(w-K)) hge
        rw [mul_assoc, mul_comm c, ← hc] at this
        omega
      calc (n+1)*2^(w-K) ≤ (rank (cursor n)/2^(w-size n)+1)*c*2^(w-K) := Nat.mul_le_mul_right _ hmul
        _ = (rank (cursor n)/2^(w-size n)+1)*2^(w-size n) := by rw [mul_assoc, mul_comm c, ← hc]
  have hlast := hfar (2^K) le_rfl
  rw [← pow_add, Nat.add_sub_cancel' hK] at hlast
  exact absurd (rank_lt (cursor (2^K))) (by omega)

end Scan
end ReverseCursor
