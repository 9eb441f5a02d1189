import Mathlib.Tactic
import Mathlib.Data.List.Basic

/-! A one-pass scanner that turns a stream of bits into its runs of ones. A
run is handed over only when the next one starts, so the scanner always holds
the latest run, followed by the zeros seen since. What is done with a run is a
parameter: `push` receives an accumulator, the start and the length. -/
namespace RunLength

/-- A run of ones: where it starts and how long it is. -/
abbrev Run := ℕ × ℕ

/-- Position `l` lies in one of the runs. -/
def Covers (rs : List Run) (l : ℕ) : Prop := ∃ r ∈ rs, r.1 ≤ l ∧ l < r.1+r.2

instance (rs : List Run) (l : ℕ) : Decidable (Covers rs l) :=
  inferInstanceAs (Decidable (∃ r ∈ rs, r.1 ≤ l ∧ l < r.1+r.2))

theorem covers_nil (l : ℕ) : ¬Covers [] l := by simp [Covers]

theorem covers_append (rs ts : List Run) (l : ℕ) :
    Covers (rs ++ ts) l ↔ Covers rs l ∨ Covers ts l := by
  simp only [Covers, List.mem_append, or_and_right, exists_or]

theorem covers_cons (r : Run) (rs : List Run) (l : ℕ) :
    Covers (r :: rs) l ↔ (r.1 ≤ l ∧ l < r.1+r.2) ∨ Covers rs l := by
  simp [Covers]

/-- The positions of the runs, one after the other. -/
def positions (rs : List Run) : List ℕ := rs.flatMap fun r => List.range' r.1 r.2

/-- The runs come in order, with a gap between any two of them. -/
def Separated (rs : List Run) : Prop := rs.Pairwise fun r t => r.1+r.2 < t.1

/-- Consecutive positions that are all covered lie in one run. -/
theorem Separated.one_run {rs : List Run} (h : Separated rs) (l n : ℕ)
    (hc : ∀ k < n+1, Covers rs (l+k)) : ∃ r ∈ rs, r.1 ≤ l ∧ l+n < r.1+r.2 := by
  induction n with
  | zero => exact hc 0 (by omega)
  | succ n ih =>
    obtain ⟨r, hr, h1, h2⟩ := ih fun k hk => hc k (by omega)
    obtain ⟨t, ht, h3, h4⟩ := hc (n+1) (by omega)
    have hsym : rs.Pairwise fun r t => r.1+r.2 < t.1 ∨ t.1+t.2 < r.1 := h.imp Or.inl
    have : Std.Symm fun r t : Run => r.1+r.2 < t.1 ∨ t.1+t.2 < r.1 := ⟨fun _ _ hab => hab.symm⟩
    by_cases hrt : r = t
    · subst hrt
      exact ⟨r, hr, h1, h4⟩
    · -- two different runs would leave a gap
      have := hsym.forall hr ht hrt
      omega

/-- The maximal runs of ones in the bits `bs`, the first of which is at position `a`. -/
structure Maximal (bs : List Bool) (a : ℕ) (rs : List Run) : Prop where
  pos : ∀ r ∈ rs, 0 < r.2
  sep : Separated rs
  covers : ∀ l, Covers rs l ↔ a ≤ l ∧ bs[l-a]? = some true

/-- A run lies inside the bits. -/
theorem Maximal.inside {bs : List Bool} {a : ℕ} {rs : List Run} (h : Maximal bs a rs)
    {r : Run} (hr : r ∈ rs) : a ≤ r.1 ∧ r.1+r.2 ≤ a+bs.length := by
  have hpos := h.pos r hr
  have hlow := (h.covers r.1).mp ⟨r, hr, le_rfl, by omega⟩
  have hhigh := (h.covers (r.1+r.2-1)).mp ⟨r, hr, by omega, by omega⟩
  obtain ⟨hlt, -⟩ := List.getElem?_eq_some_iff.mp hhigh.2
  exact ⟨hlow.1, by omega⟩

/-- All runs are shorter than `N` when no `N` consecutive bits are set. -/
theorem Maximal.short_iff {bs : List Bool} {a : ℕ} {rs : List Run} (h : Maximal bs a rs) {N : ℕ}
    (hN : 0 < N) : (∀ r ∈ rs, r.2 < N) ↔
      ∀ i, i+N ≤ bs.length → ∃ k < N, bs[i+k]? = some false := by
  constructor
  · intro hlt i hi
    by_contra hno
    push Not at hno
    -- N set bits in a row lie in one run
    have hset (k : ℕ) (hk : k < N) : Covers rs (a+i+k) := by
      apply (h.covers _).mpr
      refine ⟨by omega, ?_⟩
      rw [show a+i+k-a = i+k from by omega]
      have hne := hno k hk
      rw [List.getElem?_eq_getElem (by omega)] at hne ⊢
      simpa using hne
    obtain ⟨r, hr, h1, h2⟩ := h.sep.one_run (a+i) (N-1) (fun k hk => hset k (by omega))
    have := hlt r hr
    omega
  · intro hclear r hr
    by_contra hge
    obtain ⟨h1, h2⟩ := h.inside hr
    obtain ⟨k, hk, hbit⟩ := hclear (r.1-a) (by omega)
    have hset := ((h.covers (r.1+k)).mp ⟨r, hr, by omega, by omega⟩).2
    rw [show r.1+k-a = r.1-a+k from by omega, hbit] at hset
    simp at hset

/-- The scanner: what became of the runs handed over, start and length of the
held run, zeros seen after it, and the number of ones handed over. -/
structure Scan (σ : Type*) where
  acc : σ
  start : ℕ
  ones : ℕ
  zeros : ℕ
  total : ℕ

namespace Scan

section
variable {σ : Type*} (push : σ → ℕ → ℕ → σ)

/-- The position of the next bit. -/
def pos (s : Scan σ) : ℕ := s.start+s.ones+s.zeros

/-- Hand over the held run and move past it and its zeros. -/
def cut (s : Scan σ) : Scan σ :=
  { acc := push s.acc s.start s.ones
    start := s.start+(s.zeros+s.ones)
    ones := 0
    zeros := 0
    total := s.total+s.ones }

def bit (s : Scan σ) (b : Bool) : Scan σ :=
  if b then
    let t := if s.zeros = 0 then s else s.cut push
    { t with ones := t.ones+1 }
  else { s with zeros := s.zeros+1 }

def read (s : Scan σ) (bs : List Bool) : Scan σ := bs.foldl (bit push) s

@[simp] theorem read_nil (s : Scan σ) : s.read push [] = s := rfl

@[simp] theorem read_cons (s : Scan σ) (b : Bool) (bs : List Bool) :
    s.read push (b :: bs) = (s.bit push b).read push bs := rfl

theorem read_append (s : Scan σ) (bs cs : List Bool) :
    s.read push (bs ++ cs) = (s.read push bs).read push cs := List.foldl_append

/-- A block of zeros only moves the scanner on. -/
theorem read_zeros (s : Scan σ) (k : ℕ) :
    s.read push (List.replicate k false) = { s with zeros := s.zeros+k } := by
  induction k generalizing s with
  | zero => rfl
  | succ k ih =>
    rw [List.replicate_succ, read_cons, ih]
    simp only [bit, Bool.false_eq_true, ↓reduceIte]
    congr 1
    omega

/-- A block of ones cuts once, and only if zeros came in between. -/
theorem read_ones (s : Scan σ) (k : ℕ) (hk : 0 < k) :
    s.read push (List.replicate k true) =
      let t := if s.zeros = 0 then s else s.cut push
      { t with ones := t.ones+k } := by
  induction k generalizing s with
  | zero => omega
  | succ k ih =>
    rw [List.replicate_succ, read_cons]
    rcases Nat.eq_zero_or_pos k with rfl | hk'
    · rfl
    · rw [ih _ hk']
      have hz : (s.bit push true).zeros = 0 := by
        by_cases h : s.zeros = 0 <;> simp [bit, cut, h]
      simp only [hz, ↓reduceIte]
      by_cases h : s.zeros = 0 <;> simp only [bit, cut, h, ↓reduceIte] <;> congr 1 <;> omega

@[simp] theorem pos_bit (s : Scan σ) (b : Bool) : (s.bit push b).pos = s.pos+1 := by
  cases b
  · simp only [bit, pos, Bool.false_eq_true, ↓reduceIte]; omega
  · by_cases h : s.zeros = 0 <;> simp only [bit, cut, pos, h, ↓reduceIte] <;> omega

/-- The ones handed over and held are the set bits read. -/
theorem total_read (s : Scan σ) (bs : List Bool) :
    (s.read push bs).total+(s.read push bs).ones = s.total+s.ones+bs.count true := by
  induction bs generalizing s with
  | nil => rfl
  | cons b bs ih =>
    rw [read_cons, ih]
    cases b with
    | false => simp [bit]
    | true => by_cases h : s.zeros = 0 <;> simp [bit, cut, h] <;> omega

/-- A run of ones stays held until the next one starts, so the scanner always
holds the last run it has read. -/
theorem held_read (s : Scan σ) (hs : s.total+s.ones ≠ 0 → s.ones ≠ 0) (bs : List Bool) :
    (s.read push bs).total+(s.read push bs).ones ≠ 0 → (s.read push bs).ones ≠ 0 := by
  induction bs generalizing s with
  | nil => exact hs
  | cons b bs ih =>
    rw [read_cons]
    apply ih
    cases b with
    | false => exact hs
    | true =>
      intro _
      simp only [bit, ↓reduceIte]
      omega

end

/-! Two scanners over the same bits agree on everything but the accumulator. -/
section
variable {σ τ : Type*} (push : σ → ℕ → ℕ → σ) (push' : τ → ℕ → ℕ → τ)

/-- Equal positions and counters, accumulators related by `R`. -/
structure Sim (R : σ → τ → Prop) (s : Scan σ) (t : Scan τ) : Prop where
  acc : R s.acc t.acc
  start : s.start = t.start
  ones : s.ones = t.ones
  zeros : s.zeros = t.zeros
  total : s.total = t.total

variable {push push'} {R : σ → τ → Prop}

theorem Sim.bit (hR : ∀ a b s n, R a b → R (push a s n) (push' b s n)) {s : Scan σ}
    {t : Scan τ} (h : Sim R s t) (b : Bool) : Sim R (s.bit push b) (t.bit push' b) := by
  obtain ⟨ha, hs, ho, hz, ht⟩ := h
  cases b with
  | false => exact ⟨ha, hs, ho, by simp [Scan.bit, hz], ht⟩
  | true =>
    by_cases h0 : t.zeros = 0
    · refine ⟨?_, ?_, ?_, ?_, ?_⟩ <;> simp [Scan.bit, hz, h0, ha, hs, ho, ht]
    · refine ⟨?_, ?_, ?_, ?_, ?_⟩ <;> simp [Scan.bit, Scan.cut, hz, h0, hs, ho, ht]
      exact hR _ _ _ _ ha

theorem Sim.read (hR : ∀ a b s n, R a b → R (push a s n) (push' b s n)) {s : Scan σ}
    {t : Scan τ} (h : Sim R s t) (bs : List Bool) : Sim R (s.read push bs) (t.read push' bs) := by
  induction bs generalizing s t with
  | nil => exact h
  | cons b bs ih => exact ih (h.bit hR b)

end

/-! The scanner that only collects runs. -/

def pushRun (rs : List Run) (s n : ℕ) : List Run := if n = 0 then rs else rs ++ [(s, n)]

def init (a : ℕ) : Scan (List Run) := ⟨[], a, 0, 0, 0⟩

/-- All runs, the held one included. -/
def allRuns (s : Scan (List Run)) : List Run := pushRun s.acc s.start s.ones

theorem sum_pushRun (rs : List Run) (s n : ℕ) :
    ((pushRun rs s n).map Prod.snd).sum = (rs.map Prod.snd).sum+n := by
  unfold pushRun
  split_ifs with h
  · omega
  · simp

/-- Together the runs are as long as the set bits read. -/
theorem sum_allRuns (s : Scan (List Run)) (h : (s.acc.map Prod.snd).sum = s.total)
    (bs : List Bool) :
    ((s.read pushRun bs).allRuns.map Prod.snd).sum = s.total+s.ones+bs.count true := by
  have hacc : ((s.read pushRun bs).acc.map Prod.snd).sum = (s.read pushRun bs).total := by
    induction bs generalizing s with
    | nil => exact h
    | cons b bs ih =>
      apply ih (s.bit pushRun b)
      cases b with
      | false => exact h
      | true =>
        by_cases hz : s.zeros = 0
        · simpa only [bit, hz, ↓reduceIte] using h
        · simp only [bit, hz, cut, sum_pushRun, h, ↓reduceIte]
  rw [allRuns, sum_pushRun, hacc, total_read]

theorem allRuns_cut (s : Scan (List Run)) : (s.cut pushRun).allRuns = s.allRuns := by
  simp only [allRuns, cut, pushRun, ↓reduceIte]

/-- A set bit makes the held run one longer, after a cut if zeros came before it. -/
theorem bit_true (s : Scan (List Run)) : ∃ t : Scan (List Run), t.zeros = 0 ∧
    t.allRuns = s.allRuns ∧ t.pos = s.pos ∧ s.bit pushRun true = { t with ones := t.ones+1 } := by
  by_cases hz : s.zeros = 0
  · exact ⟨s, hz, rfl, rfl, by simp only [bit, hz, ↓reduceIte]⟩
  · refine ⟨s.cut pushRun, rfl, allRuns_cut s, ?_, by simp only [bit, hz, ↓reduceIte]⟩
    simp only [cut, pos]
    omega

/-- One bit adds exactly its own position, when it is set. -/
theorem covers_bit (s : Scan (List Run)) (b : Bool) (l : ℕ) :
    Covers (s.bit pushRun b).allRuns l ↔ Covers s.allRuns l ∨ (b = true ∧ l = s.pos) := by
  cases b with
  | false => simp [bit, allRuns]
  | true =>
    obtain ⟨t, hz, hruns, hp, hbit⟩ := bit_true s
    have hall : allRuns { t with ones := t.ones+1 } = t.acc ++ [(t.start, t.ones+1)] := by
      simp only [allRuns, pushRun, show ¬t.ones+1 = 0 from by omega, ↓reduceIte]
    rw [hbit, ← hruns, ← hp, hall, covers_append, covers_cons]
    simp only [true_and]
    -- the held run is empty or ends at the current position
    by_cases ho : t.ones = 0
    · simp only [allRuns, pushRun, ho, ↓reduceIte, pos, hz, covers_nil, or_false]
      exact or_congr Iff.rfl (by omega)
    · simp only [allRuns, pushRun, ho, ↓reduceIte, pos, hz, covers_append, covers_cons,
        covers_nil, or_false, or_assoc]
      exact or_congr Iff.rfl (by omega)

/-- The runs cover exactly the positions of the set bits. -/
theorem covers_read (s : Scan (List Run)) (bs : List Bool) (l : ℕ) :
    Covers (s.read pushRun bs).allRuns l ↔
      Covers s.allRuns l ∨ (s.pos ≤ l ∧ bs[l-s.pos]? = some true) := by
  induction bs generalizing s with
  | nil => simp
  | cons b bs ih =>
    rw [read_cons, ih, covers_bit, pos_bit, or_assoc]
    apply or_congr Iff.rfl
    by_cases hl : l = s.pos
    · subst hl
      simp
    · constructor
      · rintro (⟨_, h⟩ | ⟨h1, h2⟩)
        · exact absurd h hl
        · refine ⟨by omega, ?_⟩
          rwa [show l-s.pos = (l-(s.pos+1))+1 from by omega, List.getElem?_cons_succ]
      · rintro ⟨h1, h2⟩
        refine Or.inr ⟨by omega, ?_⟩
        rwa [show l-s.pos = (l-(s.pos+1))+1 from by omega, List.getElem?_cons_succ] at h2

theorem positions_pushRun (rs : List Run) (a n : ℕ) :
    positions (pushRun rs a n) = positions rs ++ List.range' a n := by
  by_cases hn : n = 0
  · subst hn
    simp [pushRun]
  · simp [pushRun, hn, positions]

theorem positions_bit (s : Scan (List Run)) (b : Bool) :
    positions (s.bit pushRun b).allRuns =
      positions s.allRuns ++ if b then [s.pos] else [] := by
  cases b with
  | false => simp [bit, allRuns]
  | true =>
    obtain ⟨t, hz, hruns, hp, hbit⟩ := bit_true s
    rw [hbit, ← hruns, ← hp, if_pos rfl]
    simp only [allRuns, positions_pushRun, List.append_assoc, pos, hz, Nat.add_zero]
    rw [List.range'_concat, Nat.one_mul]

/-- The runs list the set positions once each and in increasing order. -/
theorem positions_read (s : Scan (List Run)) (bs : List Bool) :
    positions (s.read pushRun bs).allRuns = positions s.allRuns ++
      (List.range' s.pos bs.length).filter fun l => bs[l-s.pos]? = some true := by
  induction bs generalizing s with
  | nil => simp
  | cons b bs ih =>
    rw [read_cons, ih, positions_bit, pos_bit, List.append_assoc, List.length_cons,
      List.range'_succ, List.filter_cons]
    congr 1
    have htail : (List.range' (s.pos+1) bs.length).filter
        (fun l => decide (bs[l-(s.pos+1)]? = some true)) =
        (List.range' (s.pos+1) bs.length).filter
        (fun l => decide ((b :: bs)[l-s.pos]? = some true)) := by
      apply List.filter_congr
      intro l hl
      have := (List.mem_range'_1.mp hl).1
      rw [show l-s.pos = (l-(s.pos+1))+1 from by omega, List.getElem?_cons_succ]
    rw [htail]
    cases b <;> simp

theorem mem_pushRun (rs : List Run) (s n : ℕ) (r : Run) :
    r ∈ pushRun rs s n ↔ r ∈ rs ∨ (n ≠ 0 ∧ r = (s, n)) := by
  by_cases hn : n = 0 <;> simp [pushRun, hn]

/-- No empty run is ever handed over. -/
theorem pos_of_mem_allRuns (s : Scan (List Run)) (hs : ∀ r ∈ s.acc, 0 < r.2) (bs : List Bool) :
    ∀ r ∈ (s.read pushRun bs).allRuns, 0 < r.2 := by
  have hpush (rs : List Run) (a n : ℕ) (h : ∀ r ∈ rs, 0 < r.2) :
      ∀ r ∈ pushRun rs a n, 0 < r.2 := by
    intro r hr
    rcases (mem_pushRun rs a n r).mp hr with h' | ⟨h', rfl⟩
    · exact h r h'
    · exact Nat.pos_of_ne_zero h'
  induction bs generalizing s with
  | nil => exact hpush _ _ _ hs
  | cons b bs ih =>
    apply ih
    cases b with
    | false => exact hs
    | true =>
      by_cases hz : s.zeros = 0
      · simpa only [bit, hz, ↓reduceIte] using hs
      · simpa only [bit, hz, ↓reduceIte, cut] using hpush _ _ _ hs

theorem separated_pushRun {rs : List Run} {a n : ℕ} (h : Separated rs)
    (hlt : ∀ r ∈ rs, r.1+r.2 < a) : Separated (pushRun rs a n) := by
  unfold pushRun
  split_ifs
  · exact h
  · apply List.pairwise_append.mpr
    refine ⟨h, List.pairwise_singleton _ _, ?_⟩
    intro r hr t ht
    rw [List.mem_singleton.mp ht]
    exact hlt r hr

/-- One bit keeps the runs apart: a cut leaves at least one zero behind. -/
theorem separated_bit (s : Scan (List Run)) (b : Bool)
    (h : Separated s.acc ∧ ∀ r ∈ s.acc, r.1+r.2 < s.start) :
    Separated (s.bit pushRun b).acc ∧
      ∀ r ∈ (s.bit pushRun b).acc, r.1+r.2 < (s.bit pushRun b).start := by
  cases b with
  | false => exact h
  | true =>
    by_cases hz : s.zeros = 0
    · simpa only [bit, hz, ↓reduceIte] using h
    · simp only [bit, hz, ↓reduceIte, cut]
      constructor
      · exact separated_pushRun h.1 h.2
      · intro r hr
        rcases (mem_pushRun _ _ _ _).mp hr with hr | ⟨-, hr⟩
        · have := h.2 r hr
          omega
        · subst hr
          dsimp only
          omega

/-- The scanner collects the maximal runs of the bits it has read. -/
theorem maximal_read (a : ℕ) (bs : List Bool) :
    Maximal bs a ((init a).read pushRun bs).allRuns where
  pos := pos_of_mem_allRuns (init a) (fun r hr => absurd hr List.not_mem_nil) bs
  sep := by
    have hread (s : Scan (List Run)) (h : Separated s.acc ∧ ∀ r ∈ s.acc, r.1+r.2 < s.start) :
        Separated (s.read pushRun bs).acc ∧
          ∀ r ∈ (s.read pushRun bs).acc, r.1+r.2 < (s.read pushRun bs).start := by
      induction bs generalizing s with
      | nil => exact h
      | cons b bs ih => exact ih (s.bit pushRun b) (separated_bit s b h)
    obtain ⟨h1, h2⟩ := hread (init a) ⟨List.Pairwise.nil, fun r hr => absurd hr List.not_mem_nil⟩
    exact separated_pushRun h1 h2
  covers := by
    intro l
    rw [covers_read]
    simp only [allRuns, init, pushRun, ↓reduceIte, covers_nil, false_or, pos, Nat.add_zero]

end Scan
end RunLength
