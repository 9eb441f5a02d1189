import Mathlib.Tactic

/-! Change logs of decreasing age: a change enters log 0 and from time to time a
log is emptied into the next older one. Each log remembers the last version it
has passed on, which bounds what the logs before it must still hold. -/
namespace AgedLogs

/-- The bits of each log and the version up to which log `k` reaches. -/
structure Logs (ι : Type*) where
  bits : ℕ → Set ι
  upTo : ℕ → ℕ

namespace Logs
variable {ι : Type*}

def below (L : Logs ι) (k : ℕ) : Set ι := {x | ∃ p < k, x ∈ L.bits p}

def add (L : Logs ι) (v : ℕ) (S : Set ι) : Logs ι :=
  ⟨Function.update L.bits 0 (L.bits 0 ∪ S), Function.update L.upTo 0 v⟩

/-- Empty log `i` into log `i+1`. -/
def age (L : Logs ι) (i : ℕ) : Logs ι :=
  ⟨Function.update (Function.update L.bits i ∅) (i+1) (L.bits i ∪ L.bits (i+1)),
    Function.update L.upTo (i+1) (L.upTo i)⟩

theorem below_add (L : Logs ι) (v : ℕ) (S : Set ι) (k : ℕ) (hk : 0 < k) :
    L.below k ∪ S ⊆ (L.add v S).below k := by
  rintro x (⟨p, hp, hx⟩ | hx)
  · refine ⟨p, hp, ?_⟩
    by_cases h0 : p = 0
    · subst h0
      simp only [add, Function.update_self]
      exact Or.inl hx
    · simp only [add, Function.update_of_ne h0]
      exact hx
  · refine ⟨0, hk, ?_⟩
    simp only [add, Function.update_self]
    exact Or.inr hx

theorem below_age (L : Logs ι) (i k : ℕ) (hk : k ≠ i+1) : L.below k ⊆ (L.age i).below k := by
  rintro x ⟨p, hp, hx⟩
  by_cases h1 : p = i+1
  · refine ⟨p, hp, ?_⟩
    subst h1
    simp only [age, Function.update_self]
    exact Or.inr hx
  · by_cases h0 : p = i
    · -- the bit has moved on, to a log that is still before k
      refine ⟨i+1, by omega, ?_⟩
      subst h0
      simp only [age, Function.update_self]
      exact Or.inl hx
    · refine ⟨p, hp, ?_⟩
      simp only [age, Function.update_of_ne h1, Function.update_of_ne h0]
      exact hx

end Logs

/-- Log `k` of `n` may be skipped by whoever has version `upTo k`. -/
structure Covered {ι : Type*} (n : ℕ) (M : ℕ → Set ι) (L : Logs ι) : Prop where
  newer : ∀ k < n, ∀ v, L.upTo k < v → M v ⊆ L.below k
  all : ∀ v, M v ⊆ L.below n

namespace Covered
variable {ι : Type*} {n : ℕ} {M : ℕ → Set ι} {L : Logs ι}

theorem age (h : Covered n M L) (i : ℕ) (hi : i+1 < n) : Covered n M (L.age i) := by
  refine ⟨?_, fun v => (h.all v).trans (L.below_age i n (by omega))⟩
  intro k hk v hv
  by_cases hki : k = i+1
  · -- log i+1 now reaches as far as log i did
    subst hki
    simp only [Logs.age, Function.update_self] at hv
    refine (h.newer i (by omega) v hv).trans ?_
    refine (L.below_age i i (by omega)).trans ?_
    rintro x ⟨p, hp, hx⟩
    exact ⟨p, by omega, hx⟩
  · simp only [Logs.age, Function.update_of_ne hki] at hv
    exact (h.newer k hk v hv).trans (L.below_age i k hki)

theorem add (h : Covered n M L) (v : ℕ) (S : Set ι) (hn : 0 < n)
    (hnew : ∀ w, v ≤ w → M w = ∅) : Covered n (Function.update M v S) (L.add v S) := by
  have hset (w k : ℕ) (hk : 0 < k) (hw : w ≠ v → M w ⊆ L.below k) :
      Function.update M v S w ⊆ (L.add v S).below k := by
    refine Set.Subset.trans ?_ (L.below_add v S k hk)
    by_cases hwv : w = v
    · subst hwv
      rw [Function.update_self]
      exact Set.subset_union_right
    · rw [Function.update_of_ne hwv]
      exact (hw hwv).trans Set.subset_union_left
  refine ⟨?_, fun w => hset w n hn (fun _ => h.all w)⟩
  intro k hk w hw
  by_cases hk0 : k = 0
  · subst hk0
    simp only [Logs.add, Function.update_self] at hw
    rw [Function.update_of_ne (by omega), hnew w (by omega)]
    exact Set.empty_subset _
  · simp only [Logs.add, Function.update_of_ne hk0] at hw
    exact hset w k (by omega) (fun _ => h.newer k hk w hw)

theorem grow (h : Covered n M L) (B : Set ι) (hB : L.bits 0 ⊆ B) :
    Covered n M ⟨Function.update L.bits 0 B, L.upTo⟩ := by
  have hbelow (k : ℕ) :
      L.below k ⊆ (⟨Function.update L.bits 0 B, L.upTo⟩ : Logs ι).below k := by
    rintro x ⟨p, hp, hx⟩
    refine ⟨p, hp, ?_⟩
    by_cases h0 : p = 0
    · subst h0
      simp only [Function.update_self]
      exact hB hx
    · simp only [Function.update_of_ne h0]
      exact hx
  exact ⟨fun k hk v hv => (h.newer k hk v hv).trans (hbelow k),
    fun v => (h.all v).trans (hbelow n)⟩

/-- Whoever has version `u` misses only what is before the first log that
reaches no further. -/
theorem missing (h : Covered n M L) {k u v : ℕ} (hk : k ≤ n) (hu : k < n → L.upTo k ≤ u)
    (hv : u < v) : M v ⊆ L.below k := by
  by_cases hkn : k = n
  · subst hkn
    exact h.all v
  · have hlt : k < n := by omega
    exact h.newer k hlt v (lt_of_le_of_lt (hu hlt) hv)

end Covered
end AgedLogs
