import Mathlib.Tactic
import Mathlib.Data.Nat.Bitwise
import Mathlib.Data.List.OfFn

/-! Words read most significant bit first: contiguous bit extraction, leading
zeros and the list of bits of a word. -/
namespace BitStream

/-- Parallel bit extract, one source bit at a time from the low end. -/
def pextAux : ℕ → ℕ → ℕ → ℕ
  | 0, _, _ => 0
  | n+1, src, mask =>
    if mask%2 = 1 then src%2+2*pextAux n (src/2) (mask/2) else pextAux n (src/2) (mask/2)

def pext64 (src mask : ℕ) : ℕ := pextAux 64 src mask

theorem pextAux_zero (n src : ℕ) : pextAux n src 0 = 0 := by
  induction n generalizing src with
  | zero => rfl
  | succ n ih => simp only [pextAux, Nat.zero_mod, zero_ne_one, ↓reduceIte, Nat.zero_div, ih]

/-- A mask of `b` low ones keeps the source modulo `2^b`. -/
theorem pextAux_low (n b src : ℕ) (hb : b ≤ n) :
    pextAux n src (2^b-1) = src%2^b := by
  induction n generalizing b src with
  | zero =>
    obtain rfl : b = 0 := by omega
    simp [pextAux, Nat.mod_one]
  | succ n ih =>
    cases b with
    | zero => simp [pextAux_zero, Nat.mod_one]
    | succ b =>
      have hp : 2^(b+1) = 2*2^b := by rw [pow_succ]; ring
      have hpos : 0 < 2^b := Nat.two_pow_pos b
      have hm : (2^(b+1)-1)%2 = 1 := by omega
      have hd : (2^(b+1)-1)/2 = 2^b-1 := by omega
      have hs : src%2^(b+1) = src%2+2*(src/2%2^b) := by
        rw [hp, Nat.mod_mul]
      rw [pextAux, if_pos hm, hd, ih b (src/2) (by omega), hs]

/-- A contiguous mask selects the field of width `b` above bit `a`. -/
theorem pextAux_field (n a b src : ℕ) (h : a+b ≤ n) :
    pextAux n src (2^a*(2^b-1)) = src/2^a%2^b := by
  induction a generalizing n src with
  | zero => simpa using pextAux_low n b src (by omega)
  | succ a ih =>
    obtain ⟨m, rfl⟩ : ∃ m, n = m+1 := ⟨n-1, by omega⟩
    have hp : 2^(a+1)*(2^b-1) = 2*(2^a*(2^b-1)) := by rw [pow_succ]; ring
    have hm : ¬(2^(a+1)*(2^b-1))%2 = 1 := by omega
    have hd : 2^(a+1)*(2^b-1)/2 = 2^a*(2^b-1) := by omega
    rw [pextAux, if_neg hm, hd, ih m (src/2) (by omega), Nat.div_div_eq_div_mul, pow_succ,
      Nat.mul_comm (2^a) 2]

/-- The bits of a word, most significant first. -/
def msbBits {w : ℕ} (x : BitVec w) : List Bool := List.ofFn fun i : Fin w => x.getMsbD i

@[simp] theorem length_msbBits {w : ℕ} (x : BitVec w) : (msbBits x).length = w := by
  simp [msbBits]

theorem getElem_msbBits {w : ℕ} (x : BitVec w) (i : ℕ) (hi : i < (msbBits x).length) :
    (msbBits x)[i] = x.getMsbD i := by
  simp [msbBits]

theorem msbBits_zero (w : ℕ) : msbBits (0#w) = List.replicate w false := by
  apply List.ext_getElem
  · simp
  · intro i _ _
    simp [getElem_msbBits]

/-- Every bit in front of the leading-zero count is clear. -/
theorem getMsbD_lt_clz {w : ℕ} (x : BitVec w) (i : ℕ) (hi : i < x.clz.toNat) :
    x.getMsbD i = false := by
  by_cases hw : i < w
  · rw [BitVec.getMsbD, Bool.and_eq_false_iff]
    right
    have hf := BitVec.getLsbD_false_of_clzAuxRec (n := w-1) (x := x)
      (by intro j hj; exact BitVec.getLsbD_of_ge x j (by omega)) (x.clz.toNat-1-i)
    change x.getLsbD (w-x.clz.toNat+(x.clz.toNat-1-i)) = false at hf
    have hle : x.clz.toNat ≤ w := by
      have := BitVec.clz_le (x := x)
      rw [BitVec.le_def] at this
      exact this.trans (by simp)
    rwa [show w-x.clz.toNat+(x.clz.toNat-1-i) = w-1-i from by omega] at hf
  · exact BitVec.getMsbD_of_ge x i (by omega)

/-- The bit at the leading-zero count is set. -/
theorem getMsbD_clz {w : ℕ} (x : BitVec w) (hc : x.clz.toNat < w) :
    x.getMsbD x.clz.toNat = true := by
  have hx : x ≠ 0#w := by
    intro h
    have := (BitVec.clz_eq_iff_eq_zero (x := x)).mpr h
    rw [this] at hc
    have hw : w < 2^w := Nat.lt_two_pow_self
    simp [Nat.mod_eq_of_lt hw] at hc
  have := BitVec.getLsbD_true_clz_of_ne_zero (by omega) hx
  rw [BitVec.getMsbD, this, Bool.and_true, decide_eq_true_eq]
  exact hc

end BitStream
