import Mathlib.Tactic

/-! Queues that give an entry of the least key first, whatever they do with equal keys. -/
namespace LeastFirst
variable {α : Type*} {key : α → ℕ}

/-- The next entry of each non-empty queue. -/
structure Queue (key : α → ℕ) where
  top : List α → α
  top_mem : ∀ {q}, q ≠ [] → top q ∈ q
  top_le : ∀ {q a}, a ∈ q → key (top q) ≤ key a

variable [DecidableEq α]

/-- The least entry replaced by `a`. -/
def Queue.replace (Q : Queue key) (q : List α) (a : α) : List α := q.erase (Q.top q) ++ [a]

theorem Queue.replace_perm (Q : Queue key) {q : List α} (hq : q ≠ []) (a : α) :
    (Q.top q :: Q.replace q a).Perm (a :: q) := by
  have h := List.perm_cons_erase (Q.top_mem hq)
  have hswap := ((List.perm_append_singleton a (q.erase (Q.top q))).cons (Q.top q)).trans
    (List.Perm.swap a (Q.top q) (q.erase (Q.top q)))
  exact hswap.trans (h.symm.cons a)

theorem Queue.mem_replace (Q : Queue key) {q : List α} {a x : α} (hx : x ∈ Q.replace q a) :
    x ∈ q ∨ x = a := by
  rcases List.mem_append.mp hx with hx | hx
  · exact .inl (List.mem_of_mem_erase hx)
  · exact .inr (List.mem_singleton.mp hx)

/-- The entries beside the new one, where `f` tells the entries apart. -/
theorem Queue.mem_replace_of_nodup {β : Type*} {f : α → β} (Q : Queue key) {q : List α} {a x : α}
    (h : ((Q.replace q a).map f).Nodup) (hx : x ∈ Q.replace q a) : (x ∈ q ∧ f x ≠ f a) ∨ x = a := by
  rw [Queue.replace, List.map_append, List.nodup_append] at h
  rcases List.mem_append.mp hx with hx | hx
  · exact .inl ⟨List.mem_of_mem_erase hx, h.2.2 _ (List.mem_map_of_mem hx) (f a) (by simp)⟩
  · exact .inr (List.mem_singleton.mp hx)

/-- The keys are within `B` of each other. -/
def Within (key : α → ℕ) (B : ℕ) (q : List α) : Prop := ∀ a ∈ q, ∀ b ∈ q, key a ≤ key b+B

/-- Adding at most `B` to the least key keeps the keys within `B`. -/
theorem Within.replace (Q : Queue key) {B : ℕ} {q : List α} (h : Within key B q) (hq : q ≠ []) {a : α}
    (hge : key (Q.top q) ≤ key a) (hle : key a ≤ key (Q.top q)+B) : Within key B (Q.replace q a) := by
  have htop := Q.top_mem hq
  intro x hx y hy
  rcases Q.mem_replace hx with hx | hxa
  · have := h x hx _ htop
    rcases Q.mem_replace hy with hy | hya
    · exact h x hx y hy
    · rw [hya]
      omega
  · rw [hxa]
    rcases Q.mem_replace hy with hy | hya
    · have := Q.top_le hy
      omega
    · rw [hya]
      omega

end LeastFirst
