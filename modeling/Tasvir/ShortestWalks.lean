import Mathlib.Tactic

/-! Walks over links with costs, least costs, and forwarding by next hops. Walks have at least
one link. -/
namespace ShortestWalks
variable {α : Type*}

/-- A walk of the cost given, with all nodes between its ends in `P`. -/
inductive Via (link : α → α → ℕ → Prop) (P : α → Prop) : α → α → ℕ → Prop
  | one {a b : α} {c : ℕ} : link a b c → Via link P a b c
  | cons {a b d : α} {c e : ℕ} : link a b c → P b → Via link P b d e → Via link P a d (c+e)

section Walks
variable {link : α → α → ℕ → Prop} {P Q : α → Prop} {a b : α} {c : ℕ}

theorem Via.mono (h : Via link P a b c) (hPQ : ∀ x, P x → Q x) : Via link Q a b c := by
  induction h with
  | one h => exact .one h
  | cons h hp _ ih => exact .cons h (hPQ _ hp) ih

theorem Via.append {d : α} {e : ℕ} (h : Via link P a b c) (hb : P b) (h' : Via link P b d e) :
    Via link P a d (c+e) := by
  induction h with
  | one h => exact .cons h hb h'
  | cons h hp _ ih =>
    rw [Nat.add_assoc]
    exact .cons h hp (ih hb h')

/-- The least cost of a walk through `P`. -/
structure Least (link : α → α → ℕ → Prop) (P : α → Prop) (a b : α) (c : ℕ) : Prop where
  walk : Via link P a b c
  le : ∀ {e}, Via link P a b e → c ≤ e

end Walks

section Forwarding
variable {link : α → α → ℕ → Prop}

/-- Forwarding to `j` by next hops, and what the links cost on the way. -/
inductive Delivers (link : α → α → ℕ → Prop) (hop : α → α) (j : α) : α → ℕ → Prop
  | last {i : α} {c : ℕ} : hop i = j → link i j c → Delivers link hop j i c
  | step {i : α} {c e : ℕ} : hop i ≠ j → link i (hop i) c → Delivers link hop j (hop i) e →
      Delivers link hop j i (c+e)

theorem Delivers.via {hop : α → α} {i j : α} {c : ℕ} (h : Delivers link hop j i c) :
    Via link (fun _ => True) i j c := by
  induction h with
  | last _ hl => exact .one hl
  | step _ hl _ ih => exact .cons hl trivial ih

/-- A walk from `i` to `j` that goes to `f` first. -/
def StartsWith (link : α → α → ℕ → Prop) (i f j : α) (c : ℕ) : Prop :=
  ∃ e, link i f e ∧ ((f = j ∧ c = e) ∨ ∃ e', Via link (fun _ => True) f j e' ∧ c = e+e')

theorem StartsWith.via {i f j : α} {c : ℕ} (h : StartsWith link i f j c) :
    Via link (fun _ => True) i j c := by
  obtain ⟨e, hl, ⟨rfl, rfl⟩ | ⟨e', hv, rfl⟩⟩ := h
  · exact .one hl
  · exact .cons hl trivial hv

theorem StartsWith.snoc {i f j b : α} {c e : ℕ} (h : StartsWith link i f j c) (hl : link j b e) :
    StartsWith link i f b (c+e) := by
  obtain ⟨e₀, hl₀, ⟨rfl, rfl⟩ | ⟨e', hv, rfl⟩⟩ := h
  · exact ⟨c, hl₀, .inr ⟨e, .one hl, rfl⟩⟩
  · exact ⟨e₀, hl₀, .inr ⟨e'+e, hv.append trivial (.one hl), Nat.add_assoc _ _ _⟩⟩

end Forwarding

section Pivot
variable (w : α → α → ℕ)

/-- A table of costs and next hops that is right for the walks through `P`. -/
structure Routes (P : α → Prop) (d : α → α → ℕ) (hop : α → α → α) : Prop where
  least : ∀ i j, Least (fun a b e => e = w a b) P i j (d i j)
  near : ∀ i j, hop i j = j ∨ P (hop i j)
  last : ∀ i j, hop i j = j → w i j ≤ d i j
  next : ∀ i j, hop i j ≠ j → w i (hop i j)+d (hop i j) j ≤ d i j
  delivers : ∀ i j, ∃ c, Delivers (fun a b e => e = w a b) (hop · j) j i c

/-- The direct links. -/
theorem routes_links : Routes w (fun _ => False) w (fun _ j => j) where
  least i j := by
    refine ⟨.one rfl, ?_⟩
    intro e he
    cases he with
    | one h => exact h.ge
    | cons _ h => exact absurd h not_false
  near _ _ := .inl rfl
  last _ _ _ := le_rfl
  next _ _ h := absurd rfl h
  delivers i j := ⟨w i j, .last rfl rfl⟩

variable {w} {P : α → Prop} {d : α → α → ℕ} {hop : α → α → α}

/-- A link to a node in `P` and the best way on from there. -/
theorem Routes.triangle (h : Routes w P d hop) {i b : α} (hb : P b) (j : α) :
    d i j ≤ w i b+d b j :=
  (h.least i j).le (.cons rfl hb (h.least b j).walk)

theorem Routes.direct (h : Routes w P d hop) (i j : α) : d i j ≤ w i j :=
  (h.least i j).le (.one rfl)

variable (k : α)

/-- The way through `k` is better. -/
def Better (d : α → α → ℕ) (k i j : α) : Prop := d i k+d k j < d i j

instance (d : α → α → ℕ) (k i j : α) : Decidable (Better d k i j) :=
  inferInstanceAs (Decidable (_ < _))

def pivotCost (d : α → α → ℕ) (i j : α) : ℕ := if Better d k i j then d i k+d k j else d i j

def pivotHop (d : α → α → ℕ) (hop : α → α → α) (i j : α) : α :=
  if Better d k i j then hop i k else hop i j

theorem not_better_self (d : α → α → ℕ) (j : α) : ¬Better d k k j := by
  unfold Better
  omega

theorem pivotCost_le (d : α → α → ℕ) (i j : α) :
    pivotCost k d i j ≤ d i j ∧ pivotCost k d i j ≤ d i k+d k j := by
  by_cases hb : Better d k i j
  · rw [pivotCost, if_pos hb]
    unfold Better at hb
    omega
  · rw [pivotCost, if_neg hb]
    unfold Better at hb
    omega

/-- Walks through one more node. -/
theorem Routes.pivot_least (h : Routes w P d hop) (i j : α) :
    Least (fun a b e => e = w a b) (fun x => P x ∨ x = k) i j (pivotCost k d i j) := by
  constructor
  · unfold pivotCost
    split
    · exact ((h.least i k).walk.mono fun _ => .inl).append (.inr rfl)
        ((h.least k j).walk.mono fun _ => .inl)
    · exact (h.least i j).walk.mono fun _ => .inl
  · intro e he
    induction he with
    | @one a b c hc =>
      subst hc
      exact (pivotCost_le k d a b).1.trans (h.direct a b)
    | @cons a b j c e hc hb _ ih =>
      subst hc
      have hle := pivotCost_le k d a j
      rcases hb with hb | rfl
      · -- the rest of the walk is as long as one of the two ways from `b`
        have h1 := h.triangle (i := a) hb j
        have h2 := h.triangle (i := a) hb k
        unfold pivotCost at ih
        split at ih <;> omega
      · have h1 := h.direct a b
        rw [pivotCost, if_neg (not_better_self b d j)] at ih
        omega

/-- Where the way through `k` is better, it is better for the next node on it too. -/
theorem Routes.better_next (h : Routes w P d hop) {i j : α} (hi : Better d k i j)
    (hk : hop i k ≠ k) : Better d k (hop i k) j := by
  have hP := (h.near i k).resolve_left hk
  have h1 := h.next i k hk
  have h2 := h.triangle (i := i) hP j
  unfold Better at hi ⊢
  omega

/-- Where it is not, it is not for the next node on the old way. -/
theorem Routes.not_better_next (h : Routes w P d hop) {i j : α} (hi : ¬Better d k i j)
    (hj : hop i j ≠ j) : ¬Better d k (hop i j) j := by
  have hP := (h.near i j).resolve_left hj
  have h1 := h.next i j hj
  have h2 := h.triangle (i := i) hP k
  unfold Better at hi ⊢
  omega

theorem Routes.pivot_delivers_old (h : Routes w P d hop) {i j : α} {c : ℕ} (hi : ¬Better d k i j)
    (hd : Delivers (fun a b e => e = w a b) (hop · j) j i c) :
    Delivers (fun a b e => e = w a b) (pivotHop k d hop · j) j i c := by
  induction hd with
  | @last i c hl hc =>
    refine .last ?_ hc
    rw [pivotHop, if_neg hi]
    exact hl
  | @step i c e hne hc _ ih =>
    have hhop : pivotHop k d hop i j = hop i j := by rw [pivotHop, if_neg hi]
    refine .step ?_ ?_ ?_
    · simp only [hhop]
      exact hne
    · simp only [hhop]
      exact hc
    · simp only [hhop]
      exact ih (h.not_better_next k hi hne)

/-- The nodes that change their next hop pass on to each other up to `k`, and from there the
old way is taken. -/
theorem Routes.pivot_delivers (h : Routes w P d hop) (i j : α) :
    ∃ c, Delivers (fun a b e => e = w a b) (pivotHop k d hop · j) j i c := by
  by_cases hi : Better d k i j
  · obtain ⟨ck, hck⟩ := h.delivers k j
    have hkj := h.pivot_delivers_old k (not_better_self k d j) hck
    obtain ⟨c, hc⟩ := h.delivers i k
    induction hc with
    | @last i c hl _ =>
      have hhop : pivotHop k d hop i j = k := by rw [pivotHop, if_pos hi, hl]
      by_cases hk : k = j
      · exact ⟨_, .last (hhop.trans hk) rfl⟩
      · refine ⟨_, .step (e := ck) ?_ rfl ?_⟩
        · simp only [hhop]
          exact hk
        · simp only [hhop]
          exact hkj
    | @step i c e hne _ _ ih =>
      have hhop : pivotHop k d hop i j = hop i k := by rw [pivotHop, if_pos hi]
      by_cases hj : hop i k = j
      · exact ⟨_, .last (hhop.trans hj) rfl⟩
      · obtain ⟨e, he⟩ := ih (h.better_next k hi hne)
        refine ⟨_, .step (e := e) ?_ rfl ?_⟩
        · simp only [hhop]
          exact hj
        · simp only [hhop]
          exact he
  · obtain ⟨c, hc⟩ := h.delivers i j
    exact ⟨c, h.pivot_delivers_old k hi hc⟩

/-- One more node to go through. -/
theorem Routes.pivot (h : Routes w P d hop) :
    Routes w (fun x => P x ∨ x = k) (pivotCost k d) (pivotHop k d hop) where
  least := h.pivot_least k
  near i j := by
    unfold pivotHop
    split
    · rcases h.near i k with h' | h'
      · exact .inr (.inr h')
      · exact .inr (.inl h')
    · exact (h.near i j).imp_right .inl
  last i j hj := by
    unfold pivotHop at hj
    unfold pivotCost
    split at hj
    next hb =>
      rw [if_pos hb]
      by_cases hk : hop i k = k
      · have := h.last i k hk
        rw [hj] at hk
        unfold Better at hb
        rw [← hk] at hb
        omega
      · have := h.next i k hk
        rw [hj] at this
        omega
    next hb =>
      rw [if_neg hb]
      exact h.last i j hj
  next i j hj := by
    unfold pivotHop at hj ⊢
    split at hj
    next hb =>
      have hcost : pivotCost k d i j = d i k+d k j := if_pos hb
      rw [if_pos hb, hcost]
      have hle := pivotCost_le k d (hop i k) j
      by_cases hk : hop i k = k
      · have := h.last i k hk
        rw [hk] at hle ⊢
        omega
      · have := h.next i k hk
        omega
    next hb =>
      have hcost : pivotCost k d i j = d i j := if_neg hb
      rw [if_neg hb, hcost]
      have hle := pivotCost_le k d (hop i j) j
      have := h.next i j hj
      omega
  delivers := h.pivot_delivers k

/-- Forwarding costs no more than the table says. -/
theorem Routes.delivers_le (h : Routes w P d hop) {i j : α} {c : ℕ}
    (hd : Delivers (fun a b e => e = w a b) (hop · j) j i c) : c ≤ d i j := by
  induction hd with
  | @last i c hl hc =>
    rw [hc]
    exact h.last i j hl
  | @step i c e hne hc _ ih =>
    have := h.next i j hne
    omega

/-- With all nodes to go through, forwarding costs what the table says. -/
theorem Routes.delivers_least (h : Routes w (fun _ => True) d hop) (i j : α) :
    Delivers (fun a b e => e = w a b) (hop · j) j i (d i j) := by
  obtain ⟨c, hc⟩ := h.delivers i j
  have hle := h.delivers_le hc
  have hge := (h.least i j).le hc.via
  rwa [le_antisymm hge hle]

end Pivot
end ShortestWalks
