import Mathlib.Tactic
import Tasvir.ParseLog

/-! The word loops of the parser read their bits in order: whatever the
pattern, skipping equal bits and zero units at once is the same as reading one
bit after the other, most significant first. -/
namespace Tasvir
open BitStream RunLength

/-- The first `n` bits of a word. -/
def topBits (w : Word) (n : ℕ) : List Bool := (List.range n).map w.getMsbD

theorem topBits_full (w : Word) : topBits w 64 = msbBits w := by
  apply List.ext_getElem
  · simp [topBits]
  · intro i h1 h2
    simp [topBits, getElem_msbBits]

/-- A prefix of equal bits splits off as a block. -/
theorem topBits_split (w : Word) (n k : ℕ) (b : Bool) (hk : k ≤ n)
    (hb : ∀ i < k, w.getMsbD i = b) :
    topBits w n = List.replicate k b ++ topBits (w <<< k) (n-k) := by
  apply List.ext_getElem
  · simp [topBits]; omega
  · intro i h1 h2
    by_cases hi : i < k
    · rw [List.getElem_append_left (by simpa using hi)]
      simpa [topBits] using hb i hi
    · rw [List.getElem_append_right (by simpa using hi)]
      simp only [topBits, List.getElem_map, List.getElem_range, List.length_replicate,
        BitVec.getMsbD_shiftLeft]
      rw [Nat.sub_add_cancel (by omega)]

/-- The leading block of a word, as the parser measures it. -/
theorem lbitsSame_spec (w : Word) (b : Bool) (n : ℕ) (hn : 0 < n) (hn64 : n ≤ 64)
    (hb : w.getMsbD 0 = b) :
    0 < min n (if b then ~~~w else w).clz.toNat ∧
    (∀ i < min n (if b then ~~~w else w).clz.toNat, w.getMsbD i = b) ∧
    (0 < n-min n (if b then ~~~w else w).clz.toNat →
      w.getMsbD (min n (if b then ~~~w else w).clz.toNat) = !b) := by
  set x := if b then ~~~w else w with hx
  have hbit (i : ℕ) (hi : i < 64) : w.getMsbD i = (x.getMsbD i ^^ b) := by
    rw [hx]
    cases b with
    | false => simp
    | true => rw [if_pos rfl, BitVec.getMsbD_not]; simp [hi]
  have h0 : x.getMsbD 0 = false := by
    have h := hbit 0 (by norm_num)
    rw [hb] at h
    cases hx0 : x.getMsbD 0 with
    | false => rfl
    | true =>
      rw [hx0] at h
      cases b <;> exact absurd h (by decide)
  have hpos : 0 < x.clz.toNat := by
    by_contra h
    have hz : x.clz.toNat = 0 := by omega
    have := getMsbD_clz x (by omega)
    rw [hz, h0] at this
    exact Bool.false_ne_true this
  refine ⟨by omega, ?_, ?_⟩
  · intro i hi
    rw [hbit i (by omega), getMsbD_lt_clz x i (by omega), Bool.false_xor]
  · intro hlt
    have hc : min n x.clz.toNat = x.clz.toNat := by omega
    rw [hc, hbit _ (by omega), getMsbD_clz x (by omega), Bool.true_xor]

/-- One pass of the unit loop reads the whole leading block. -/
theorem read_block (s : LogScan) (b : Bool) (k : ℕ) (hk : 0 < k) :
    s.read pushItem (List.replicate k b) =
      let s := if b ∧ s.zeros ≠ 0 then s.cut pushItem else s
      if b then { s with ones := s.ones+k } else { s with zeros := s.zeros+k } := by
  cases b with
  | false => simp [Scan.read_zeros]
  | true =>
    rw [Scan.read_ones _ _ _ hk]
    by_cases h : s.zeros = 0 <;> simp [h]

theorem parseUnitLoop_eq (fuel : ℕ) (s : LogScan) (n : ℕ) (w : Word) (b : Bool)
    (hf : n ≤ fuel) (hn : 0 < n) (hn64 : n ≤ 64) (hb : w.getMsbD 0 = b) :
    parseUnitLoop fuel s n w b = s.read pushItem (topBits w n) := by
  induction fuel generalizing s n w b with
  | zero => omega
  | succ fuel ih =>
    obtain ⟨hpos, hblock, hnext⟩ := lbitsSame_spec w b n hn hn64 hb
    rw [topBits_split w n _ b (Nat.min_le_left _ _) hblock, Scan.read_append,
      read_block s b _ hpos, parseUnitLoop]
    by_cases hleft : n-min n (if b then ~~~w else w).clz.toNat > 0
    · rw [if_pos hleft]
      apply ih
      · omega
      · exact hleft
      · omega
      · rw [BitVec.getMsbD_shiftLeft, Nat.zero_add]
        exact hnext hleft
    · rw [if_neg hleft, show n-min n (if b then ~~~w else w).clz.toNat = 0 from by omega]
      rfl

/-- A log unit is read most significant bit first. -/
theorem parseUnit_eq (s : LogScan) (w : Word) : parseUnit s w = s.read pushItem (msbBits w) := by
  rw [parseUnit, parseUnitLoop_eq 64 s 64 w w.msb le_rfl (by norm_num) le_rfl rfl, topBits_full]

/-- Below the trailing-zero count all bits are clear, at the count one is set. -/
theorem tzcntAux_spec (n x : ℕ) :
    (∀ j < tzcntAux n x, x.testBit j = false) ∧
    (tzcntAux n x < n → x.testBit (tzcntAux n x) = true) := by
  induction n generalizing x with
  | zero => simp [tzcntAux]
  | succ n ih =>
    obtain ⟨h1, h2⟩ := ih (x/2)
    by_cases hx : x%2 = 1
    · simp only [tzcntAux, hx, ↓reduceIte]
      exact ⟨fun j hj => absurd hj (by omega), fun _ => by simp [Nat.testBit_zero, hx]⟩
    · simp only [tzcntAux, hx, ↓reduceIte]
      constructor
      · intro j hj
        cases j with
        | zero => simp [Nat.testBit_zero, hx]
        | succ j => rw [Nat.testBit_succ]; exact h1 j (by omega)
      · intro hlt
        rw [Nat.add_comm, Nat.testBit_succ]
        exact h2 (by omega)

theorem testBit_testMaskAux (v : Words) (n j : ℕ) :
    (testMaskAux v n).testBit j = (decide (j < n) && decide (v j ≠ 0#64)) := by
  induction n with
  | zero => simp [testMaskAux]
  | succ n ih =>
    rw [testMaskAux, Nat.testBit_or, ih]
    by_cases hj : j = n
    · subst hj
      by_cases hv : v j = 0#64 <;> simp [hv]
    · have hlt : (j < n+1) = (j < n) := propext (by omega)
      by_cases hv : v n = 0#64 <;> simp [hv, hlt, Ne.symm hj]

/-- The mask with its sentinel, bit by bit. -/
theorem testBit_testMask (v : Words) (j : ℕ) (hj : j ≤ 8) :
    (testMask v ||| 2^8).testBit j = (decide (j = 8) || decide (v j ≠ 0#64)) := by
  rw [testMask, Nat.testBit_or, testBit_testMaskAux, Nat.testBit_two_pow]
  by_cases h8 : j = 8
  · simp [h8]
  · simp [h8, Ne.symm h8, show j < 8 from by omega]

theorem testMask_eq_zero (v : Words) : testMask v = 0 ↔ ∀ i < 8, v i = 0#64 := by
  constructor
  · intro h i hi
    have hb := testBit_testMaskAux v 8 i
    rw [← testMask, h, Nat.zero_testBit] at hb
    simpa [hi] using hb.symm
  · intro h
    apply Nat.eq_of_testBit_eq
    intro j
    rw [testMask, testBit_testMaskAux, Nat.zero_testBit]
    by_cases hj : j < 8
    · simp [h j hj]
    · simp [hj]

/-- The bits of `n` consecutive units. -/
def unitBits (v : Words) (i n : ℕ) : List Bool :=
  (List.range' i n).flatMap fun u => msbBits (v u)

theorem unitBits_succ (v : Words) (i n : ℕ) :
    unitBits v i (n+1) = msbBits (v i) ++ unitBits v (i+1) n := by
  simp [unitBits, List.range'_succ]

theorem unitBits_add (v : Words) (i m n : ℕ) :
    unitBits v i (m+n) = unitBits v i m ++ unitBits v (i+m) n := by
  simp only [unitBits, ← List.range'_append_1, List.flatMap_append]

theorem unitBits_zeros (v : Words) (i n : ℕ) (h : ∀ j < n, v (i+j) = 0#64) :
    unitBits v i n = List.replicate (n*64) false := by
  induction n generalizing i with
  | zero => rfl
  | succ n ih =>
    have h0 := h 0 (by omega)
    rw [Nat.add_zero] at h0
    have ht : ∀ j < n, v (i+1+j) = 0#64 := by
      intro j hj
      rw [Nat.add_assoc, Nat.add_comm 1 j]
      exact h (j+1) (by omega)
    rw [unitBits_succ, h0, ih (i+1) ht]
    rw [msbBits_zero, ← List.replicate_add]
    congr 1
    omega

theorem length_unitBits (v : Words) (i n : ℕ) : (unitBits v i n).length = n*64 := by
  simp [unitBits, List.length_flatMap]

/-- Bit `k` of the stream is the bit of line `k` counted from the first unit. -/
theorem getElem?_unitBits (v : Words) (i n k : ℕ) :
    (unitBits v i n)[k]? = some true ↔ k < n*64 ∧ lineBit v (i*64+k) = true := by
  induction n generalizing i k with
  | zero => simp [unitBits]
  | succ n ih =>
    rw [unitBits_succ]
    by_cases hk : k < 64
    · rw [List.getElem?_append_left (by simpa using hk), List.getElem?_eq_getElem (by simpa using hk),
        getElem_msbBits, Option.some.injEq, lineBit, show (i*64+k)/64 = i from by omega,
        show (i*64+k)%64 = k from by omega]
      exact ⟨fun h => ⟨by omega, h⟩, fun h => h.2⟩
    · rw [List.getElem?_append_right (by simpa using hk), length_msbBits, ih,
        show (i+1)*64+(k-64) = i*64+k from by omega]
      exact and_congr (by omega) Iff.rfl

/-- The skip count spans zero units only, and is zero only on a non-zero unit. -/
theorem zcnt_spec (v : Words) (i : ℕ) (hi : i < 8) :
    i+tzcnt32 ((testMask v ||| 2^8) >>> i) ≤ 8 ∧
    (∀ j < tzcnt32 ((testMask v ||| 2^8) >>> i), v (i+j) = 0#64) := by
  obtain ⟨h1, _⟩ := tzcntAux_spec 32 ((testMask v ||| 2^8) >>> i)
  have hle : i+tzcnt32 ((testMask v ||| 2^8) >>> i) ≤ 8 := by
    by_contra hgt
    have := h1 (8-i) (by unfold tzcnt32 at hgt; omega)
    rw [Nat.testBit_shiftRight, show i+(8-i) = 8 from by omega, testBit_testMask v 8 le_rfl] at this
    simp at this
  refine ⟨hle, ?_⟩
  intro j hj
  have := h1 j hj
  rw [Nat.testBit_shiftRight, testBit_testMask v (i+j) (by omega)] at this
  simpa [show i+j ≠ 8 from by omega] using this

theorem parseUnits_eq (v : Words) (fuel : ℕ) (s : LogScan) (i : ℕ) (hi : i ≤ 8)
    (hf : 8-i ≤ fuel) : parseUnits v fuel s i = s.read pushItem (unitBits v i (8-i)) := by
  induction fuel generalizing s i with
  | zero =>
    rw [show 8-i = 0 from by omega]
    rfl
  | succ fuel ih =>
    by_cases h8 : i < 8
    · obtain ⟨hle, hz⟩ := zcnt_spec v i h8
      rw [parseUnits, if_pos h8]
      by_cases hc : tzcnt32 ((testMask v ||| 2^8) >>> i) ≠ 0
      · rw [if_pos hc, ih _ _ hle (by omega),
          show 8-i = tzcnt32 ((testMask v ||| 2^8) >>> i) +
            (8-(i+tzcnt32 ((testMask v ||| 2^8) >>> i))) from by omega,
          unitBits_add, Scan.read_append, unitBits_zeros v i _ hz, Scan.read_zeros]
      · rw [if_neg hc, ih _ _ (by omega) (by omega), parseUnit_eq,
          show 8-i = (8-(i+1))+1 from by omega, unitBits_succ, Scan.read_append]
    · rw [parseUnits, if_neg h8, show 8-i = 0 from by omega]
      rfl

end Tasvir
