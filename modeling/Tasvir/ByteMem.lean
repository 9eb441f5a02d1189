import Mathlib.Data.List.GetD
import Mathlib.Tactic

/-! A memory of bytes: little-endian words, byte ranges and C strings in it. -/
namespace ByteMem

abbrev Bytes := ℕ → ℕ

/-- The little-endian number in `n` bytes. -/
def load (m : Bytes) (a : ℕ) : ℕ → ℕ
  | 0 => 0
  | n+1 => m a+256*load m (a+1) n

def encode : ℕ → ℕ → List ℕ
  | 0, _ => []
  | n+1, v => v%256 :: encode n (v/256)

def store (m : Bytes) (a : ℕ) (bs : List ℕ) : Bytes :=
  fun x => if a ≤ x ∧ x < a+bs.length then bs.getD (x-a) 0 else m x

/-- The `n` bytes at `a`. -/
def bytes (m : Bytes) (a n : ℕ) : List ℕ := (List.range n).map fun i => m (a+i)

/-- The bytes up to the first NUL, which is looked for in the first `n` only. -/
def cstr (m : Bytes) : ℕ → ℕ → List ℕ
  | 0, _ => []
  | n+1, a => if m a = 0 then [] else m a :: cstr m n (a+1)

/-- The two memories have the same bytes in a range. -/
def Same (m m' : Bytes) (a b : ℕ) : Prop := ∀ x, a ≤ x → x < b → m' x = m x

variable {m m' : Bytes} {a b : ℕ}

theorem Same.mono {a' b' : ℕ} (h : Same m m' a b) (ha : a ≤ a') (hb : b' ≤ b) : Same m m' a' b' :=
  fun x h1 h2 => h x (ha.trans h1) (h2.trans_le hb)

theorem Same.trans {m'' : Bytes} (h : Same m m' a b) (h' : Same m' m'' a b) : Same m m'' a b :=
  fun x h1 h2 => (h' x h1 h2).trans (h x h1 h2)

/-- A store outside of the range. -/
theorem same_store (m : Bytes) {c : ℕ} {bs : List ℕ} (h : b ≤ c ∨ c+bs.length ≤ a) :
    Same m (store m c bs) a b := by
  intro x h1 h2
  exact if_neg (by omega)

theorem store_inside (m : Bytes) (a : ℕ) (bs : List ℕ) {i : ℕ} (hi : i < bs.length) :
    store m a bs (a+i) = bs.getD i 0 := by
  rw [store, if_pos ⟨by omega, by omega⟩, Nat.add_sub_cancel_left]

@[simp] theorem length_bytes (m : Bytes) (a n : ℕ) : (bytes m a n).length = n := by
  rw [bytes, List.length_map, List.length_range]

/-- What a copy of `n` bytes from `b` to `a` leaves. -/
theorem store_bytes (m : Bytes) (a b n x : ℕ) :
    store m a (bytes m b n) x = if a ≤ x ∧ x < a+n then m (b+(x-a)) else m x := by
  rw [store, length_bytes]
  by_cases hx : a ≤ x ∧ x < a+n
  · rw [if_pos hx, if_pos hx, bytes, List.getD_eq_getElem?_getD, List.getElem?_map,
      List.getElem?_range (by omega)]
    rfl
  · rw [if_neg hx, if_neg hx]

@[simp] theorem length_encode (n v : ℕ) : (encode n v).length = n := by
  induction n generalizing v with
  | zero => rfl
  | succ n ih => rw [encode, List.length_cons, ih]

theorem load_congr (n : ℕ) (h : Same m m' a (a+n)) : load m' a n = load m a n := by
  induction n generalizing a with
  | zero => rfl
  | succ n ih =>
    rw [load, load, h a le_rfl (by omega), ih (h.mono (by omega) (by omega))]

theorem load_eq (n v : ℕ) (h : ∀ i < n, m (a+i) = (encode n v).getD i 0) :
    load m a n = v%256^n := by
  induction n generalizing a v with
  | zero => rw [load, pow_zero, Nat.mod_one]
  | succ n ih =>
    have hrest : load m (a+1) n = v/256%256^n := by
      apply ih
      intro i hi
      have hb := h (i+1) (by omega)
      rw [show a+1+i = a+(i+1) from by omega, hb]
      rfl
    have hfirst : m a = v%256 := h 0 (by omega)
    rw [load, hrest, hfirst, pow_succ', Nat.mod_mul]

/-- What is stored is what is loaded. -/
theorem load_store (m : Bytes) (a n v : ℕ) : load (store m a (encode n v)) a n = v%256^n := by
  apply load_eq
  intro i hi
  exact store_inside m a _ (by rwa [length_encode])

theorem load_store_lt (m : Bytes) (a n : ℕ) {v : ℕ} (hv : v < 256^n) :
    load (store m a (encode n v)) a n = v := by
  rw [load_store, Nat.mod_eq_of_lt hv]

theorem load_store_ne (m : Bytes) {c n : ℕ} (bs : List ℕ) (h : a+n ≤ c ∨ c+bs.length ≤ a) :
    load (store m c bs) a n = load m a n := load_congr n (same_store m h)

/-- A string with its terminator. -/
theorem cstr_eq (bs : List ℕ) (h : ∀ i < bs.length, m (a+i) = bs.getD i 0) (h0 : ∀ b ∈ bs, b ≠ 0)
    (hend : m (a+bs.length) = 0) (n : ℕ) (hn : bs.length < n) : cstr m n a = bs := by
  induction bs generalizing a n with
  | nil =>
    obtain ⟨n, rfl⟩ : ∃ k, n = k+1 := ⟨n-1, by simp at hn; omega⟩
    exact if_pos hend
  | cons b bs ih =>
    rw [List.length_cons] at hn
    obtain ⟨n, rfl⟩ : ∃ k, n = k+1 := ⟨n-1, by omega⟩
    have hb : m a = b := h 0 (by simp)
    rw [cstr, hb, if_neg (h0 b List.mem_cons_self)]
    congr 1
    apply ih
    · intro i hi
      have hi' := h (i+1) (by rw [List.length_cons]; omega)
      rw [show a+1+i = a+(i+1) from by omega, hi']
      rfl
    · exact fun c hc => h0 c (List.mem_cons_of_mem _ hc)
    · rw [List.length_cons] at hend
      rw [← hend]
      congr 1
      omega
    · omega

/-- A string that is stored with its terminator. -/
theorem cstr_store (m : Bytes) (a : ℕ) {bs : List ℕ} (h0 : ∀ b ∈ bs, b ≠ 0) {n : ℕ}
    (hn : bs.length < n) :
    cstr (store m a (bs ++ [0])) n a = bs ∧ store m a (bs ++ [0]) (a+bs.length) = 0 := by
  have hlen : (bs ++ [0]).length = bs.length+1 := by simp
  have hend : store m a (bs ++ [0]) (a+bs.length) = 0 := by
    rw [store_inside m a _ (by omega)]
    simp
  refine ⟨cstr_eq bs ?_ h0 hend n hn, hend⟩
  intro i hi
  rw [store_inside m a _ (by omega), List.getD_append _ _ _ _ hi]

/-- A string depends on its bytes up to a NUL only. -/
theorem cstr_congr (n j : ℕ) (hj : m (a+j) = 0) (h : Same m m' a (a+j+1)) :
    cstr m' n a = cstr m n a := by
  induction n generalizing a j with
  | zero => rfl
  | succ n ih =>
    rw [cstr, cstr, h a le_rfl (by omega)]
    split_ifs with hz
    · rfl
    · have hne : j ≠ 0 := by
        rintro rfl
        exact hz hj
      rw [ih (j-1) (by rw [← hj]; congr 1; omega) (h.mono (by omega) (by omega))]

end ByteMem
