import Mathlib.Tactic
import Tasvir.LeastFirst
import Tasvir.RoutingDynamic

/-! The controller of `routing_dijkstra`: every switch has three links, and a priority queue of
hops gives the forwarding table of each switch. -/
namespace Tasvir
open ShortestWalks LeastFirst

namespace RoutingDijkstra

/-- `NEIGHBOR_PER_SWITCH`. -/
def neighborPerSwitch : ℕ := 3

/-- The cost, and next hop, of a switch that has not been reached. -/
def unreached : ℕ := 2^32-1

/-- `NextHop`; `origin` and `dest` are its fields `from` and `to`. -/
structure NextHop where
  origin : ℕ
  dest : ℕ
  firstHop : ℕ
  totalCost : ℕ
deriving DecidableEq, Inhabited

/-- The hops over the links of a switch, after a way to it with the first hop and cost given. -/
def hops (adj : LinkTable) (cur cost : ℕ) (firstHop : Link → ℕ) : List NextHop :=
  (List.range neighborPerSwitch).map (fun k =>
    ⟨cur, (adj cur k).dest, firstHop (adj cur k), (cost+(adj cur k).cost)%2^32⟩)

/-- `while (!next.empty())`, for one row of the table; each round takes one of the fuel. `next` is a
`std::priority_queue` with `compare`. -/
def search (Q : Queue NextHop.totalCost) (adj : LinkTable) : ℕ → List NextHop → (ℕ → Link) → Option (ℕ → Link)
  | 0, _, _ => none
  | fuel+1, next, row =>
    if next = [] then some row
    else
      let hop := Q.top next
      let next := next.erase hop
      if (row hop.dest).cost > hop.totalCost then
        search Q adj fuel (next ++ hops adj hop.dest hop.totalCost (fun _ => hop.firstHop))
          (Function.update row hop.dest ⟨hop.firstHop, hop.totalCost⟩)
      else search Q adj fuel next row

/-- The row of switch `i` before the search. -/
def startRow (i : ℕ) : ℕ → Link := Function.update (fun _ => ⟨unreached, unreached⟩) i ⟨i, 0⟩

/-- The search from switch `i`. -/
def searchFrom (Q : Queue NextHop.totalCost) (adj : LinkTable) (fuel i : ℕ) : Option (ℕ → Link) :=
  search Q adj fuel (hops adj i 0 Link.dest) (startRow i)

/-- A round of `run_controller` over all switches. -/
def controller (Q : Queue NextHop.totalCost) (n fuel : ℕ) (adj : LinkTable) : Option LinkTable :=
  (List.range n).foldl (fun t i => t.bind fun t => (searchFrom Q adj fuel i).map (Function.update t i))
    (some startRow)

/-- `fast_random`: the number and the next seed. -/
def fastRandom (seed : ℕ) : ℕ×ℕ :=
  let seed := (seed*1103515245+12345)%2^64
  (seed/2^32, seed)

/-- `do … while (now->to == table_id)`. -/
def pickNeighbor (n id : ℕ) : ℕ → ℕ → Option (ℕ×ℕ)
  | 0, _ => none
  | fuel+1, seed =>
    let (r, seed) := fastRandom seed
    if r%n = id then pickNeighbor n id fuel seed else some (r%n, seed)

/-- The update of link `k`. -/
def updateLink (n id fuel : ℕ) (s : Option ((ℕ → Link)×ℕ)) (k : ℕ) : Option ((ℕ → Link)×ℕ) := do
  let (adj, seed) ← s
  let (dest, seed) ← pickNeighbor n id fuel seed
  let (r, seed) := fastRandom seed
  return (Function.update adj k ⟨dest, r%10+1⟩, seed)

/-- The links that `run_switch` writes for switch `id`. -/
def updateLinks (n id fuel : ℕ) (adj : ℕ → Link) (seed : ℕ) : Option ((ℕ → Link)×ℕ) :=
  (List.range neighborPerSwitch).foldl (updateLink n id fuel) (some (adj, seed))

def adjLink (n : ℕ) (adj : LinkTable) (a b c : ℕ) : Prop :=
  a < n ∧ ∃ k, k < neighborPerSwitch ∧ adj a k = ⟨b, c⟩

section Search
variable {n C : ℕ} {adj : LinkTable}

/-- The links lead to switches, and no way without a cycle can cost as much as `unreached`. -/
structure Links (n C : ℕ) (adj : LinkTable) : Prop where
  dest : ∀ {i k}, i < n → k < neighborPerSwitch → (adj i k).dest < n
  cost : ∀ {i k}, i < n → k < neighborPerSwitch → (adj i k).cost ≤ C
  small : n*C < unreached

/-- How many switches have been reached. -/
def reached (n : ℕ) (row : ℕ → Link) : ℕ :=
  ((Finset.range n).filter (fun j => (row j).cost < unreached)).card

/-- What holds in every round of the search from `i`. -/
structure SearchInv (n C : ℕ) (adj : LinkTable) (i : ℕ) (next : List NextHop) (row : ℕ → Link) :
    Prop where
  source : row i = ⟨i, 0⟩
  lt : ∀ h ∈ next, h.dest < n
  walk : ∀ h ∈ next, StartsWith (adjLink n adj) i h.firstHop h.dest h.totalCost
  bound : ∀ h ∈ next, h.totalCost ≤ reached n row*C
  rows : ∀ j, j < n → j ≠ i → row j = ⟨unreached, unreached⟩ ∨
    (row j).cost < unreached ∧ StartsWith (adjLink n adj) i (row j).dest j (row j).cost
  rowBound : ∀ j, j < n → (row j).cost < unreached → (row j).cost+C ≤ reached n row*C
  order : ∀ j, j < n → (row j).cost < unreached → ∀ h ∈ next, (row j).cost ≤ h.totalCost
  closed : ∀ {j b c}, (row j).cost < unreached → adjLink n adj j b c →
    (row b).cost ≤ (row j).cost+c ∨ ∃ h ∈ next, h.dest = b ∧ h.totalCost ≤ (row j).cost+c

variable {i : ℕ} {next : List NextHop} {row : ℕ → Link}

theorem mem_hops {cur cost : ℕ} {firstHop : Link → ℕ} {h : NextHop} :
    h ∈ hops adj cur cost firstHop ↔ ∃ k, k < neighborPerSwitch ∧
      h = ⟨cur, (adj cur k).dest, firstHop (adj cur k), (cost+(adj cur k).cost)%2^32⟩ := by
  simp only [hops, List.mem_map, List.mem_range, eq_comm]

theorem reached_le (n : ℕ) (row : ℕ → Link) : reached n row ≤ n := by
  calc reached n row ≤ (Finset.range n).card := Finset.card_filter_le _ _
    _ = n := Finset.card_range n

theorem Links.lt_unreached (h : Links n C adj) {x : ℕ} (hx : x ≤ reached n row*C) :
    x < unreached := by
  have := Nat.mul_le_mul_right C (reached_le n row)
  have := h.small
  omega

/-- The round that drops a hop to a switch that is not farther. -/
theorem SearchInv.skip (h : SearchInv n C adj i next row) {hop : NextHop}
    (hle : (row hop.dest).cost ≤ hop.totalCost) : SearchInv n C adj i (next.erase hop) row := by
  have hmem {x : NextHop} (hx : x ∈ next.erase hop) : x ∈ next := List.mem_of_mem_erase hx
  refine ⟨h.source, fun x hx => h.lt x (hmem hx), fun x hx => h.walk x (hmem hx),
    fun x hx => h.bound x (hmem hx), h.rows, h.rowBound,
    fun j hj hr x hx => h.order j hj hr x (hmem hx), ?_⟩
  intro j b c hj hlink
  rcases h.closed hj hlink with h' | ⟨x, hx, rfl, hc⟩
  · exact .inl h'
  · by_cases hxe : x = hop
    · left
      rw [hxe] at hc ⊢
      exact hle.trans hc
    · exact .inr ⟨x, (List.mem_erase_of_ne hxe).mpr hx, rfl, hc⟩

theorem reached_update {d : ℕ} {l : Link} (hd : d < n) (hold : ¬(row d).cost < unreached)
    (hnew : l.cost < unreached) : reached n (Function.update row d l) = reached n row+1 := by
  have hset : (Finset.range n).filter (fun j => (Function.update row d l j).cost < unreached) =
      insert d ((Finset.range n).filter (fun j => (row j).cost < unreached)) := by
    ext j
    simp only [Finset.mem_filter, Finset.mem_range, Finset.mem_insert]
    by_cases hj : j = d
    · subst hj
      simp [hd, hnew]
    · simp [hj]
  rw [reached, hset, Finset.card_insert_of_notMem, reached]
  simp [hold]

/-- The round that reaches a switch: the nearest hop of the queue leads to a switch with no row,
since every row is as near as every hop. -/
theorem SearchInv.relax (hl : Links n C adj) (h : SearchInv n C adj i next row) {hop : NextHop}
    (hmem : hop ∈ next) (htop : ∀ x ∈ next, hop.totalCost ≤ x.totalCost)
    (hlt : hop.totalCost < (row hop.dest).cost) :
    SearchInv n C adj i
      (next.erase hop ++ hops adj hop.dest hop.totalCost (fun _ => hop.firstHop))
      (Function.update row hop.dest ⟨hop.firstHop, hop.totalCost⟩) ∧
    reached n (Function.update row hop.dest ⟨hop.firstHop, hop.totalCost⟩) = reached n row+1 := by
  have hd := h.lt hop hmem
  have hbound := h.bound hop hmem
  have hold : ¬(row hop.dest).cost < unreached := by
    intro hr
    exact absurd (h.order hop.dest hd hr hop hmem) (not_le.mpr hlt)
  have hcount : reached n (Function.update row hop.dest ⟨hop.firstHop, hop.totalCost⟩) =
      reached n row+1 := reached_update hd hold (hl.lt_unreached hbound)
  refine ⟨?_, hcount⟩
  have hsucc : (reached n row+1)*C = reached n row*C+C := Nat.succ_mul _ _
  have hnew {x : ℕ} (hx : x ≤ C) : (hop.totalCost+x)%2^32 = hop.totalCost+x := by
    have hle : hop.totalCost+x ≤
        reached n (Function.update row hop.dest ⟨hop.firstHop, hop.totalCost⟩)*C := by
      rw [hcount]
      omega
    have := hl.lt_unreached hle
    apply Nat.mod_eq_of_lt
    unfold unreached at this
    omega
  have hnext {x : NextHop}
      (hx : x ∈ next.erase hop ++ hops adj hop.dest hop.totalCost (fun _ => hop.firstHop)) :
      x ∈ next ∨ ∃ k, k < neighborPerSwitch ∧ x = ⟨hop.dest, (adj hop.dest k).dest, hop.firstHop,
        hop.totalCost+(adj hop.dest k).cost⟩ := by
    rcases List.mem_append.mp hx with hx | hx
    · exact .inl (List.mem_of_mem_erase hx)
    · obtain ⟨k, hk, rfl⟩ := mem_hops.mp hx
      refine .inr ⟨k, hk, ?_⟩
      rw [hnew (hl.cost hd hk)]
  have hrow {j : ℕ} (hj : j ≠ hop.dest) :
      Function.update row hop.dest ⟨hop.firstHop, hop.totalCost⟩ j = row j :=
    Function.update_of_ne hj _ _
  have hself : Function.update row hop.dest ⟨hop.firstHop, hop.totalCost⟩ hop.dest =
      ⟨hop.firstHop, hop.totalCost⟩ := Function.update_self _ _ _
  have hsource : i ≠ hop.dest := by
    intro he
    rw [← he, h.source] at hlt
    exact absurd hlt (Nat.not_lt_zero _)
  refine ⟨?_, ?_, ?_, ?_, ?_, ?_, ?_, ?_⟩
  · rw [hrow hsource]
    exact h.source
  · intro x hx
    rcases hnext hx with hx | ⟨k, hk, rfl⟩
    · exact h.lt x hx
    · exact hl.dest hd hk
  · intro x hx
    rcases hnext hx with hx | ⟨k, hk, rfl⟩
    · exact h.walk x hx
    · exact (h.walk hop hmem).snoc ⟨hd, k, hk, rfl⟩
  · intro x hx
    rw [hcount, hsucc]
    rcases hnext hx with hx | ⟨k, hk, rfl⟩
    · exact (h.bound x hx).trans (Nat.le_add_right _ _)
    · exact Nat.add_le_add hbound (hl.cost hd hk)
  · intro j hj hji
    by_cases hjd : j = hop.dest
    · subst hjd
      rw [hself]
      exact .inr ⟨hl.lt_unreached hbound, h.walk hop hmem⟩
    · rw [hrow hjd]
      exact h.rows j hj hji
  · intro j hj hr
    rw [hcount, hsucc]
    by_cases hjd : j = hop.dest
    · subst hjd
      rw [hself]
      exact Nat.add_le_add_right hbound C
    · rw [hrow hjd] at hr ⊢
      exact (h.rowBound j hj hr).trans (Nat.le_add_right _ _)
  · intro j hj hr x hx
    have hnear : (Function.update row hop.dest ⟨hop.firstHop, hop.totalCost⟩ j).cost ≤
        hop.totalCost := by
      by_cases hjd : j = hop.dest
      · subst hjd
        rw [hself]
      · rw [hrow hjd] at hr ⊢
        exact h.order j hj hr hop hmem
    rcases hnext hx with hx | ⟨k, hk, rfl⟩
    · exact hnear.trans (htop x hx)
    · exact hnear.trans (Nat.le_add_right _ _)
  · intro j b c hr hlink
    by_cases hjd : j = hop.dest
    · subst hjd
      obtain ⟨-, k, hk, hkb⟩ := hlink
      right
      refine ⟨_, List.mem_append_right _ (mem_hops.mpr ⟨k, hk, rfl⟩), by rw [hkb], ?_⟩
      have := hnew (hl.cost hd hk)
      rw [hkb] at this
      simp only [hself, hkb, this]
      exact le_rfl
    · rw [hrow hjd] at hr ⊢
      have hb : (row b).cost ≤ (row j).cost+c → (Function.update row hop.dest
          ⟨hop.firstHop, hop.totalCost⟩ b).cost ≤ (row j).cost+c := by
        intro hle
        by_cases hbd : b = hop.dest
        · subst hbd
          rw [hself]
          exact hlt.le.trans hle
        · rwa [hrow hbd]
      rcases h.closed hr hlink with hle | ⟨x, hx, hxb, hc⟩
      · exact .inl (hb hle)
      · by_cases hxe : x = hop
        · left
          rw [← hxb, hxe, hself]
          rwa [hxe] at hc
        · exact .inr ⟨x, List.mem_append_left _ ((List.mem_erase_of_ne hxe).mpr hx), hxb, hc⟩

theorem pickNeighbor_lt {id fuel seed b seed' : ℕ} (hn : 0 < n)
    (h : pickNeighbor n id fuel seed = some (b, seed')) : b < n ∧ b ≠ id := by
  induction fuel generalizing seed with
  | zero => cases h
  | succ fuel ih =>
    simp only [pickNeighbor] at h
    split at h
    next => exact ih h
    next hne =>
      cases h
      exact ⟨Nat.mod_lt _ hn, hne⟩

/-- The links that a switch writes lead to other switches and cost between 1 and 10. -/
theorem updateLinks_spec {id fuel seed seed' : ℕ} {row row' : ℕ → Link} (hn : 0 < n)
    (h : updateLinks n id fuel row seed = some (row', seed')) {k : ℕ} (hk : k < neighborPerSwitch) :
    (row' k).dest < n ∧ (row' k).dest ≠ id ∧ 0 < (row' k).cost ∧ (row' k).cost ≤ 10 := by
  have hrun {m : ℕ} : ∀ {row' seed'}, (List.range m).foldl (updateLink n id fuel) (some (row, seed)) =
      some (row', seed') → ∀ k, k < m →
      (row' k).dest < n ∧ (row' k).dest ≠ id ∧ 0 < (row' k).cost ∧ (row' k).cost ≤ 10 := by
    induction m with
    | zero => exact fun _ k hk => absurd hk (Nat.not_lt_zero k)
    | succ m ih =>
      intro row' seed' h k hk
      rw [List.range_succ, List.foldl_append] at h
      cases hs : (List.range m).foldl (updateLink n id fuel) (some (row, seed)) with
      | none =>
        rw [hs] at h
        cases h
      | some s =>
        obtain ⟨row₁, seed₁⟩ := s
        rw [hs] at h
        cases hp : pickNeighbor n id fuel seed₁ with
        | none => simp [updateLink, hp] at h
        | some b =>
          obtain ⟨b, seed₂⟩ := b
          have hb := pickNeighbor_lt hn hp
          simp only [List.foldl_cons, List.foldl_nil, updateLink, Option.bind_eq_bind,
            Option.bind_some, hp, Option.pure_def, Option.some.injEq, Prod.mk.injEq] at h
          rw [← h.1]
          by_cases hkm : k = m
          · subst hkm
            rw [Function.update_self]
            refine ⟨hb.1, hb.2, Nat.succ_pos _, ?_⟩
            exact Nat.succ_le_of_lt (Nat.mod_lt _ (by decide))
          · rw [Function.update_of_ne hkm]
            exact ih hs k (by omega)
  exact hrun h k hk

/-- Tables that the switches wrote. -/
theorem links_of_updateLinks (hn : n < 2^28)
    (h : ∀ i, i < n → ∃ fuel row seed seed', updateLinks n i fuel row seed = some (adj i, seed')) :
    Links n 10 adj := by
  have hspec {i k : ℕ} (hi : i < n) (hk : k < neighborPerSwitch) :
      (adj i k).dest < n ∧ (adj i k).dest ≠ i ∧ 0 < (adj i k).cost ∧ (adj i k).cost ≤ 10 := by
    obtain ⟨fuel, row, seed, seed', hu⟩ := h i hi
    exact updateLinks_spec (Nat.zero_lt_of_lt hi) hu hk
  refine ⟨fun hi hk => (hspec hi hk).1, fun hi hk => (hspec hi hk).2.2.2, ?_⟩
  unfold unreached
  omega

/-- Three switches, with the links of switch 2 in a ring that never leads to switch 1. -/
def ring (i : ℕ) (_ : ℕ) : Link := if i = 2 then ⟨0, 4⟩ else ⟨2, 3⟩

end Search
end RoutingDijkstra
end Tasvir
