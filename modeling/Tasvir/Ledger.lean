import Mathlib.Tactic

/-! Things kept in places: a ledger lists what is in each place, and a thing is conserved
when it is in exactly one place, once. -/
namespace Ledger
variable {P β : Type*} [DecidableEq β]

/-- The thing is in one place, once, and in no other. -/
def Once (h : P → List β) (b : β) : Prop := ∃ p, (h p).count b = 1 ∧ ∀ q, q ≠ p → b ∉ h q

def Conserved (all : β → Prop) (h : P → List β) : Prop := ∀ b, all b → Once h b

/-- A thing that is conserved is only where it is found. -/
theorem Once.unique {h : P → List β} {b : β} (ho : Once h b) {p : P} (hb : b ∈ h p) :
    (h p).count b = 1 ∧ ∀ q, q ≠ p → b ∉ h q := by
  obtain ⟨r, hr, hother⟩ := ho
  have hpr : p = r := by
    by_contra hne
    exact hother p hne hb
  rw [hpr]
  exact ⟨hr, hother⟩

/-- One thing moves from one place to another. -/
theorem Conserved.move {all : β → Prop} {h h' : P → List β} (hc : Conserved all h) {x : β}
    {p q : P} (hpq : p ≠ q) (hp : (h p).Perm (x :: h' p)) (hq : (h' q).Perm (x :: h q))
    (hr : ∀ r, r ≠ p → r ≠ q → h' r = h r) : Conserved all h' := by
  intro b hb
  have hpc := hp.count_eq b
  have hqc := hq.count_eq b
  by_cases hbx : b = x
  · subst hbx
    obtain ⟨hcount, hother⟩ := (hc b hb).unique (hp.symm.subset List.mem_cons_self)
    have hnq := List.count_eq_zero.mpr (hother q (Ne.symm hpq))
    rw [List.count_cons_self] at hpc hqc
    refine ⟨q, by omega, ?_⟩
    intro r hrq
    by_cases hrp : r = p
    · rw [hrp]
      exact List.count_eq_zero.mp (by omega)
    · rw [hr r hrp hrq]
      exact hother r hrp
  · -- the others stay
    rw [List.count_cons_of_ne (Ne.symm hbx)] at hpc hqc
    have hsame (r : P) : (h' r).count b = (h r).count b := by
      by_cases hrp : r = p
      · rw [hrp, hpc]
      · by_cases hrq : r = q
        · rw [hrq, hqc]
        · rw [hr r hrp hrq]
    obtain ⟨r, h1, h2⟩ := hc b hb
    refine ⟨r, by rw [hsame, h1], ?_⟩
    intro r' hr'
    apply List.count_eq_zero.mp
    rw [hsame]
    exact List.count_eq_zero.mpr (h2 r' hr')

end Ledger
