import Mathlib.Tactic
import Tasvir.ShortestWalks

/-! The controller of `routing_dynamic`: it reads the adjacency tables that the switches own,
computes all shortest paths, and publishes a forwarding table for each switch. -/
namespace Tasvir
open ShortestWalks

/-- `Link`; `dest` is its field `to`, and both fields are `uint32_t`. -/
structure Link where
  dest : ℕ
  cost : ℕ
deriving DecidableEq

/-- A table of links, for each switch and each other. -/
abbrev LinkTable := ℕ → ℕ → Link

def LinkTable.set (t : LinkTable) (i j : ℕ) (l : Link) : LinkTable :=
  Function.update t i (Function.update (t i) j l)

theorem LinkTable.set_self (t : LinkTable) (i j : ℕ) (l : Link) : t.set i j l i j = l := by
  simp [LinkTable.set]

theorem LinkTable.set_other {t : LinkTable} {i j a b : ℕ} (l : Link) (h : ¬(a = i ∧ b = j)) :
    t.set i j l a b = t a b := by
  unfold LinkTable.set
  by_cases ha : a = i
  · subst ha
    have hb : b ≠ j := fun hb => h ⟨rfl, hb⟩
    simp [hb]
  · simp [ha]

namespace RoutingDynamic

/-- The links that `run_switch` writes: the one with the number of its thread costs nothing, the
others have a random cost. -/
def updateLinks (id : ℕ) (random : ℕ → ℕ) (i : ℕ) : Link :=
  if i = id then ⟨i, 0⟩ else ⟨i, random i%10+1⟩

/-- The body of the three loops of `run_controller`. -/
def relax (k i : ℕ) (t : LinkTable) (j : ℕ) : LinkTable :=
  if (t i j).cost > ((t i k).cost+(t k j).cost)%2^32 then
    t.set i j ⟨(t i k).dest, ((t i k).cost+(t k j).cost)%2^32⟩
  else t

/-- The loops over `i` and `j`, for one `k`. -/
def relaxAll (n : ℕ) (t : LinkTable) (k : ℕ) : LinkTable :=
  (List.range n).foldl (fun t i => (List.range n).foldl (relax k i) t) t

/-- A round of `run_controller`: the adjacency tables are copied, the table is updated and
published. -/
def controller (n : ℕ) (adj : LinkTable) : LinkTable :=
  (List.range n).foldl (relaxAll n) (fun i j => ⟨(adj i j).dest, (adj i j).cost⟩)

section Loops
variable {n : ℕ} {t : LinkTable} {d : Fin n → Fin n → ℕ} {hop : Fin n → Fin n → Fin n}

/-- The table has the costs and next hops given. -/
def Shows (t : LinkTable) (d : Fin n → Fin n → ℕ) (hop : Fin n → Fin n → Fin n) : Prop :=
  ∀ i j : Fin n, t i j = ⟨hop i j, d i j⟩

variable (k : Fin n)

/-- The cell after the loops for `k`. -/
def newCell (d : Fin n → Fin n → ℕ) (hop : Fin n → Fin n → Fin n) (i j : Fin n) : Link :=
  ⟨(pivotHop k d hop i j).val, pivotCost k d i j⟩

/-- Inside the loops for `k` a cell is as before them or as after. -/
def Toward (d : Fin n → Fin n → ℕ) (hop : Fin n → Fin n → Fin n) (t : LinkTable) : Prop :=
  ∀ i j : Fin n, t i j = ⟨hop i j, d i j⟩ ∨ t i j = newCell k d hop i j

/-- The row and the column of `k` do not change in its loops. -/
theorem Toward.pivot_row (h : Toward k d hop t) (j : Fin n) : (t k j).cost = d k j := by
  rcases h k j with h' | h'
  · rw [h']
  · rw [h', newCell, pivotCost, if_neg (not_better_self k d j)]

theorem Toward.pivot_column (h : Toward k d hop t) (i : Fin n) : t i k = ⟨hop i k, d i k⟩ := by
  rcases h i k with h' | h'
  · exact h'
  · have hnot : ¬Better d k i k := by
      unfold Better
      omega
    rw [h', newCell, pivotCost, pivotHop, if_neg hnot, if_neg hnot]

/-- The body of the loops brings one cell to its new contents. -/
theorem Toward.relax (h : Toward k d hop t) (hd : ∀ i j, d i j < 2^31) (i j : Fin n) :
    relax k i t j i j = newCell k d hop i j ∧
      ∀ a b, ¬(a = i.val ∧ b = j.val) → relax k i t j a b = t a b := by
  have hrow := h.pivot_row k j
  have hcol := h.pivot_column k i
  have h1 := hd i k
  have h2 := hd k j
  have hsum : ((t i k).cost+(t k j).cost)%2^32 = d i k+d k j := by
    rw [hrow, hcol]
    exact Nat.mod_eq_of_lt (by simp only; omega)
  unfold RoutingDynamic.relax
  rw [hsum]
  by_cases hb : Better d k i j
  · have hnew : newCell k d hop i j = ⟨hop i k, d i k+d k j⟩ := by
      rw [newCell, pivotCost, pivotHop, if_pos hb, if_pos hb]
    rcases h i j with h' | h'
    · have hgt : (t i j).cost > d i k+d k j := by
        rw [h']
        exact hb
      rw [if_pos hgt, LinkTable.set_self, hnew, hcol]
      exact ⟨rfl, fun a b hab => LinkTable.set_other _ hab⟩
    · have hle : ¬(t i j).cost > d i k+d k j := by
        rw [h', hnew]
        exact lt_irrefl _
      rw [if_neg hle]
      exact ⟨h', fun _ _ _ => rfl⟩
  · have hold : newCell k d hop i j = ⟨hop i j, d i j⟩ := by
      rw [newCell, pivotCost, pivotHop, if_neg hb, if_neg hb]
    have hcell : t i j = ⟨hop i j, d i j⟩ := by
      rcases h i j with h' | h'
      · exact h'
      · rw [h', hold]
    have hle : ¬(t i j).cost > d i k+d k j := by
      rw [hcell]
      exact hb
    rw [if_neg hle]
    exact ⟨hcell.trans hold.symm, fun _ _ _ => rfl⟩

/-- What is done stays done: the loop over `j` brings the cells of its row, and changes no
other. -/
theorem Toward.row (hd : ∀ i j, d i j < 2^31) (i : Fin n) {l : List ℕ} (hl : ∀ j ∈ l, j < n) :
    ∀ {t : LinkTable}, Toward k d hop t →
      (∀ j : Fin n, j.val ∈ l → l.foldl (RoutingDynamic.relax k i) t i j = newCell k d hop i j) ∧
      (∀ a b : Fin n, l.foldl (RoutingDynamic.relax k i) t a b = t a b ∨
        l.foldl (RoutingDynamic.relax k i) t a b = newCell k d hop a b) := by
  induction l with
  | nil =>
    intro t _
    exact ⟨fun j hj => absurd hj List.not_mem_nil, fun _ _ => .inl rfl⟩
  | cons j l ih =>
    intro t h
    obtain ⟨hself, hother⟩ := h.relax k hd i ⟨j, hl j List.mem_cons_self⟩
    simp only at hself hother
    have hcell (a b : Fin n) : RoutingDynamic.relax k i t j a b = t a b ∨
        RoutingDynamic.relax k i t j a b = newCell k d hop a b := by
      by_cases hab : a.val = i.val ∧ b.val = j
      · right
        have ha : a = i := Fin.ext hab.1
        have hb : b = ⟨j, hl j List.mem_cons_self⟩ := Fin.ext hab.2
        rw [ha, hb]
        exact hself
      · exact .inl (hother a b hab)
    have htow : Toward k d hop (RoutingDynamic.relax k i t j) := by
      intro a b
      rcases hcell a b with h' | h'
      · rw [h']
        exact h a b
      · exact .inr h'
    obtain ⟨ih1, ih2⟩ := ih (fun x hx => hl x (List.mem_cons_of_mem _ hx)) htow
    rw [List.foldl_cons]
    refine ⟨?_, ?_⟩
    · intro b hb
      rcases List.mem_cons.mp hb with rfl | hb
      · rcases ih2 i b with h' | h'
        · rw [h']
          exact hself
        · exact h'
      · exact ih1 b hb
    · intro a b
      rcases ih2 a b with h' | h'
      · rw [h']
        exact hcell a b
      · exact .inr h'

theorem Toward.rows (hd : ∀ i j, d i j < 2^31) {l : List ℕ} (hl : ∀ i ∈ l, i < n) :
    ∀ {t : LinkTable}, Toward k d hop t →
      (∀ i j : Fin n, i.val ∈ l → l.foldl (fun t i => (List.range n).foldl (RoutingDynamic.relax k i) t)
        t i j = newCell k d hop i j) ∧
      (∀ a b : Fin n, l.foldl (fun t i => (List.range n).foldl (RoutingDynamic.relax k i) t) t a b =
          t a b ∨
        l.foldl (fun t i => (List.range n).foldl (RoutingDynamic.relax k i) t) t a b =
          newCell k d hop a b) := by
  induction l with
  | nil =>
    intro t _
    exact ⟨fun i j hi => absurd hi List.not_mem_nil, fun _ _ => .inl rfl⟩
  | cons i l ih =>
    intro t h
    have hrange : ∀ j ∈ List.range n, j < n := fun j hj => List.mem_range.mp hj
    obtain ⟨hrow, hcell⟩ := Toward.row k hd ⟨i, hl i List.mem_cons_self⟩ hrange h
    simp only at hrow hcell
    have htow : Toward k d hop ((List.range n).foldl (RoutingDynamic.relax k i) t) := by
      intro a b
      rcases hcell a b with h' | h'
      · rw [h']
        exact h a b
      · exact .inr h'
    obtain ⟨ih1, ih2⟩ := ih (fun x hx => hl x (List.mem_cons_of_mem _ hx)) htow
    rw [List.foldl_cons]
    refine ⟨?_, ?_⟩
    · intro a b ha
      rcases List.mem_cons.mp ha with rfl | ha
      · rcases ih2 a b with h' | h'
        · rw [h']
          exact hrow b (List.mem_range.mpr b.isLt)
        · exact h'
      · exact ih1 a b ha
    · intro a b
      rcases ih2 a b with h' | h'
      · rw [h']
        exact hcell a b
      · exact .inr h'

theorem Shows.relaxAll (h : Shows t d hop) (hd : ∀ i j, d i j < 2^31) :
    Shows (relaxAll n t k) (pivotCost k d) (pivotHop k d hop) := by
  intro i j
  exact (Toward.rows k hd (fun i hi => List.mem_range.mp hi) (fun a b => .inl (h a b))).1 i j
    (List.mem_range.mpr i.isLt)

end Loops

section Controller
variable {n : ℕ} {w : Fin n → Fin n → ℕ}

/-- The loop over `k`: after some of the switches the table is right for the walks through
them. -/
theorem Shows.foldl {l : List ℕ} (hl : ∀ k ∈ l, k < n) :
    ∀ {t : LinkTable} {P : Fin n → Prop} {d : Fin n → Fin n → ℕ} {hop : Fin n → Fin n → Fin n},
      Routes w P d hop → Shows t d hop → (∀ i j, d i j < 2^31) →
      ∃ d' hop', Routes w (fun x => P x ∨ x.val ∈ l) d' hop' ∧
        Shows (l.foldl (RoutingDynamic.relaxAll n) t) d' hop' := by
  induction l with
  | nil =>
    intro t P d hop hr hs _
    refine ⟨d, hop, ?_, hs⟩
    have hP : (fun x : Fin n => P x ∨ x.val ∈ ([] : List ℕ)) = P := by
      funext x
      simp
    rw [hP]
    exact hr
  | cons k l ih =>
    intro t P d hop hr hs hd
    have hk := hl k List.mem_cons_self
    obtain ⟨d', hop', hr', hs'⟩ := ih (fun x hx => hl x (List.mem_cons_of_mem _ hx))
      (hr.pivot ⟨k, hk⟩) (hs.relaxAll ⟨k, hk⟩ hd)
      (fun i j => (pivotCost_le ⟨k, hk⟩ d i j).1.trans_lt (hd i j))
    refine ⟨d', hop', ?_, hs'⟩
    have hP : (fun x : Fin n => P x ∨ x.val ∈ k :: l) =
        fun x => (P x ∨ x = ⟨k, hk⟩) ∨ x.val ∈ l := by
      funext x
      simp only [List.mem_cons, Fin.ext_iff, or_assoc]
    rw [hP]
    exact hr'

def adjLink (n : ℕ) (adj : LinkTable) (a b c : ℕ) : Prop := a < n ∧ b < n ∧ c = (adj a b).cost

theorem via_of_fin {adj : LinkTable} {i j : Fin n} {c : ℕ}
    (h : Via (fun (a b : Fin n) e => e = (adj a b).cost) (fun _ => True) i j c) :
    Via (adjLink n adj) (fun _ => True) i.val j.val c := by
  induction h with
  | @one a b c hc => exact .one ⟨a.isLt, b.isLt, hc⟩
  | @cons a b d c e hc _ _ ih => exact .cons ⟨a.isLt, b.isLt, hc⟩ trivial ih

theorem fin_of_via {adj : LinkTable} {i j c : ℕ} (h : Via (adjLink n adj) (fun _ => True) i j c) :
    ∃ (hi : i < n) (hj : j < n), Via (fun (a b : Fin n) e => e = (adj a b).cost) (fun _ => True)
      ⟨i, hi⟩ ⟨j, hj⟩ c := by
  induction h with
  | one hl => exact ⟨hl.1, hl.2.1, .one hl.2.2⟩
  | cons hl _ _ ih =>
    obtain ⟨hb, hj, hv⟩ := ih
    exact ⟨hl.1, hj, .cons hl.2.2 trivial hv⟩

theorem delivers_of_fin {adj : LinkTable} {t : LinkTable} {hop : Fin n → Fin n → Fin n} {i j : Fin n}
    {c : ℕ} (hhop : ∀ a : Fin n, (t a j).dest = hop a j)
    (h : Delivers (fun (a b : Fin n) e => e = (adj a b).cost) (hop · j) j i c) :
    Delivers (adjLink n adj) (fun a => (t a j).dest) j.val i.val c := by
  induction h with
  | @last i c hl hc => exact .last ((hhop i).trans (congrArg Fin.val hl)) ⟨i.isLt, j.isLt, hc⟩
  | @step i c e hne hc _ ih =>
    refine .step ?_ ?_ ?_
    · simp only [hhop i]
      exact fun he => hne (Fin.ext he)
    · simp only [hhop i]
      exact ⟨i.isLt, (hop i j).isLt, hc⟩
    · simp only [hhop i]
      exact ih

/-- The published tables: the cost of every destination is the least over all ways there, and
passing a packet on from table to table delivers it at that cost. -/
theorem controller_routes (adj : LinkTable) (hdest : ∀ i j, i < n → j < n → (adj i j).dest = j)
    (hcost : ∀ i j, i < n → j < n → (adj i j).cost < 2^31) {i j : ℕ} (hi : i < n) (hj : j < n) :
    Least (adjLink n adj) (fun _ => True) i j (controller n adj i j).cost ∧
      Delivers (adjLink n adj) (fun a => (controller n adj a j).dest) j i
        (controller n adj i j).cost := by
  have hstart : Shows (fun i j => ⟨(adj i j).dest, (adj i j).cost⟩)
      (fun i j : Fin n => (adj i j).cost) (fun _ j => j) := by
    intro a b
    simp only [hdest a b a.isLt b.isLt]
  obtain ⟨d, hop, hr, hs⟩ := Shows.foldl (fun k hk => List.mem_range.mp hk)
    (routes_links fun i j : Fin n => (adj i j).cost) hstart (fun i j => hcost i j i.isLt j.isLt)
  have hall : (fun x : Fin n => False ∨ x.val ∈ List.range n) = fun _ => True := by
    funext x
    simp
  rw [hall] at hr
  have hcell : controller n adj i j = ⟨hop ⟨i, hi⟩ ⟨j, hj⟩, d ⟨i, hi⟩ ⟨j, hj⟩⟩ :=
    hs ⟨i, hi⟩ ⟨j, hj⟩
  rw [hcell]
  refine ⟨⟨via_of_fin (hr.least ⟨i, hi⟩ ⟨j, hj⟩).walk, ?_⟩, ?_⟩
  · intro e he
    obtain ⟨_, _, hv⟩ := fin_of_via he
    exact (hr.least ⟨i, hi⟩ ⟨j, hj⟩).le hv
  · apply delivers_of_fin (i := ⟨i, hi⟩) (j := ⟨j, hj⟩) _ (hr.delivers_least _ _)
    intro a
    exact congrArg Link.dest (hs a ⟨j, hj⟩)

/-- The links that switches write satisfy the hypotheses. -/
theorem controller_routes_switches :
    Delivers (adjLink 3 (fun a => updateLinks (a+1) (fun i => 7*i+a)))
      (fun a => (controller 3 (fun a => updateLinks (a+1) (fun i => 7*i+a)) a 0).dest) 0 2
      (controller 3 (fun a => updateLinks (a+1) (fun i => 7*i+a)) 2 0).cost := by
  apply (controller_routes (n := 3) (fun a => updateLinks (a+1) (fun i => 7*i+a)) _ _ _ _).2
  · intro i j _ _
    unfold updateLinks
    split <;> rfl
  · intro i j _ _
    unfold updateLinks
    split
    · norm_num
    · simp only
      omega
  · norm_num
  · norm_num

end Controller
end RoutingDynamic
end Tasvir
