import Mathlib.Tactic
import Tasvir.LeastFirst
import Tasvir.UnionForest

/-! The partitioner of `cyclades`: the connected components of a batch of datapoints that share
coordinates, and their distribution over the threads. A datapoint stands for its position in the
data set. -/
namespace Tasvir
open UnionForest LeastFirst

namespace Cyclades

/-- `while (p[a] != a) a = p[a]`; each round takes one of the fuel. -/
def findRoot (p : ℕ → ℕ) : ℕ → ℕ → Option ℕ
  | 0, _ => none
  | fuel+1, a => if p a ≠ a then findRoot p fuel (p a) else some a

/-- `while (root != a)`. -/
def compress (a : ℕ) : ℕ → ℕ → (ℕ → ℕ) → Option (ℕ → ℕ)
  | 0, _, _ => none
  | fuel+1, root, p =>
    if root ≠ a then compress a fuel (p root) (Function.update p root a) else some p

/-- `UnionFind`: the root, and the tree it leaves. -/
def unionFind (fuel a : ℕ) (p : ℕ → ℕ) : Option (ℕ×(ℕ → ℕ)) := do
  let r ← findRoot p fuel a
  let p ← compress r fuel a p
  return (r, p)

/-- `std::unordered_map<int, std::vector<Datapoint *>>`. -/
structure Components where
  keys : List ℕ
  points : ℕ → List ℕ

/-- `components[key].push_back(d)`. -/
def Components.pushBack (c : Components) (key d : ℕ) : Components where
  keys := if key ∈ c.keys then c.keys else c.keys ++ [key]
  points := Function.update c.points key (c.points key ++ [d])

section ComputeCC
variable (coords : ℕ → List ℕ) (fuel n start : ℕ)

/-- `tree[UnionFind(n + c, tree)] = target`. -/
def joinCoordinate (target : ℕ) (tree : ℕ → ℕ) (c : ℕ) : Option (ℕ → ℕ) := do
  let (r, tree) ← unionFind fuel (n+c) tree
  return Function.update tree r target

/-- A round of the first loop of `ComputeCC`. -/
def joinDatapoint (tree : ℕ → ℕ) (i : ℕ) : Option (ℕ → ℕ) := do
  let (target, tree) ← unionFind fuel i tree
  (coords (start+i)).foldlM (joinCoordinate fuel n target) tree

/-- A round of the second loop. -/
def collect (s : (ℕ → ℕ)×Components) (i : ℕ) : Option ((ℕ → ℕ)×Components) := do
  let (r, tree) ← unionFind fuel i s.1
  return (tree, s.2.pushBack r (start+i))

/-- `ComputeCC`, for the `n` datapoints from `start` on. -/
def computeCC : Option Components := do
  let tree ← (List.range n).foldlM (joinDatapoint coords fuel n start) id
  let (_, components) ← (List.range n).foldlM (collect fuel start) (tree, ⟨[], fun _ => []⟩)
  return components

end ComputeCC

/-- `ThreadLoadPair`: a thread and its load. -/
abbrev ThreadLoadPair := ℕ×ℕ

structure DatapointPartitions where
  nThreads : ℕ
  datapointsPerThread : ℕ → List ℕ
  batchIndices : ℕ → List ℕ
  threadLoadHeap : List ThreadLoadPair

namespace DatapointPartitions

/-- `ClearThreadLoadHeap`. -/
def clearThreadLoadHeap (p : DatapointPartitions) : DatapointPartitions :=
  { p with threadLoadHeap := (List.range p.nThreads).map (·, 0) }

/-- `StartNewBatch`. -/
def startNewBatch (p : DatapointPartitions) : DatapointPartitions :=
  clearThreadLoadHeap { p with
    batchIndices := fun i =>
      if i < p.nThreads then p.batchIndices i ++ [(p.datapointsPerThread i).length]
      else p.batchIndices i }

/-- `AddDatapointToThread`. -/
def addDatapointToThread (thread : ℕ) (p : DatapointPartitions) (d : ℕ) : DatapointPartitions :=
  { p with datapointsPerThread :=
      Function.update p.datapointsPerThread thread (p.datapointsPerThread thread ++ [d]) }

/-- `AddDatapointsToLeastLoadedThread`; `Q` is the heap's choice among the least loaded. -/
def addDatapointsToLeastLoadedThread (Q : Queue (Prod.snd : ThreadLoadPair → ℕ))
    (p : DatapointPartitions) (datapoints : List ℕ) : DatapointPartitions :=
  let lightest := Q.top p.threadLoadHeap
  let p' := datapoints.foldl (addDatapointToThread lightest.1) p
  { p' with threadLoadHeap :=
      Q.replace p.threadLoadHeap (lightest.1, lightest.2+datapoints.length) }

def numBatches (p : DatapointPartitions) : ℕ := (p.batchIndices 0).length

def numDatapointsInBatch (p : DatapointPartitions) (thread batch : ℕ) : ℕ :=
  if batch = p.numBatches-1 then
    (p.datapointsPerThread thread).length-(p.batchIndices thread).getD batch 0
  else (p.batchIndices thread).getD (batch+1) 0-(p.batchIndices thread).getD batch 0

/-- `GetDatapoint`. -/
def getDatapoint (p : DatapointPartitions) (thread batch index : ℕ) : Option ℕ :=
  (p.datapointsPerThread thread)[(p.batchIndices thread).getD batch 0+index]?

/-- `GetDatapoints`. -/
def getDatapoints (p : DatapointPartitions) (thread batch : ℕ) : List ℕ :=
  ((p.datapointsPerThread thread).drop ((p.batchIndices thread).getD batch 0)).take
    (p.numDatapointsInBatch thread batch)

end DatapointPartitions

/-- The order in which an unordered map gives its keys. -/
structure KeyOrder where
  keys : List ℕ → List ℕ
  perm : ∀ l, (keys l).Perm l

section Partition
variable (Q : Queue (Prod.snd : ThreadLoadPair → ℕ)) (order : KeyOrder)

/-- The components of a batch, each to the least loaded thread, and the end of the batch. -/
def addBatch (p : DatapointPartitions) (c : Components) : DatapointPartitions :=
  (((order.keys c.keys).map c.points).foldl (·.addDatapointsToLeastLoadedThread Q) p).startNewBatch

end Partition

section UnionFind
variable {p : ℕ → ℕ} {a r N fuel : ℕ}

theorem findRoot_spec {k : ℕ} (h : RootIn p k a r) (hfuel : k < fuel) :
    findRoot p fuel a = some r := by
  induction h generalizing fuel with
  | self h =>
    obtain ⟨fuel, rfl⟩ := Nat.exists_eq_add_one_of_ne_zero hfuel.ne_bot
    rw [findRoot, if_neg (not_not.mpr h)]
  | up hne _ ih =>
    obtain ⟨fuel, rfl⟩ := Nat.exists_eq_add_one_of_ne_zero hfuel.ne_bot
    rw [findRoot, if_pos hne]
    exact ih (by omega)

/-- The tree keeps its roots while the nodes of the way move to the root. -/
theorem compress_spec {k : ℕ} (h : RootIn p k a r) (hp : ∀ x, x < N → p x < N) (ha : a < N)
    (hr : r < N) (hfuel : k < fuel) :
    ∃ p', compress r fuel a p = some p' ∧ (∀ x s, Root p x s → Root p' x s) ∧
      ∀ x, x < N → p' x < N := by
  induction k generalizing p a fuel with
  | zero =>
    obtain ⟨fuel, rfl⟩ := Nat.exists_eq_add_one_of_ne_zero hfuel.ne_bot
    cases h
    rw [compress, if_neg (not_not.mpr rfl)]
    exact ⟨p, rfl, fun _ _ h => h, hp⟩
  | succ k ih =>
    obtain ⟨fuel, rfl⟩ := Nat.exists_eq_add_one_of_ne_zero hfuel.ne_bot
    have hroot := h.root
    cases h with
    | up hne hup =>
      have har : a ≠ r := by
        rintro rfl
        exact hne hroot
      have hup' := hup.move (t := r) (.up hne hup) (Nat.lt_succ_self k)
      have hp' : ∀ x, x < N → Function.update p a r x < N := by
        intro x hx
        by_cases hxa : x = a
        · rwa [hxa, Function.update_self]
        · rw [Function.update_of_ne hxa]
          exact hp x hx
      obtain ⟨p', hc, hroots, hlt⟩ := ih hup' hp' (hp a ha) (Nat.lt_of_succ_lt_succ hfuel)
      rw [compress, if_pos har]
      refine ⟨p', hc, ?_, hlt⟩
      intro x s hx
      exact hroots x s (Root.compress ⟨k+1, .up hne hup⟩ har hx)

/-- What `UnionFind` keeps of a tree. -/
structure Keeps (N : ℕ) (p p' : ℕ → ℕ) : Prop where
  roots : ∀ x s, Root p x s → Root p' x s
  lt : ∀ x, x < N → p' x < N

theorem rootIn_lt {k : ℕ} (h : RootIn p k a r) (hp : ∀ x, x < N → p x < N) (ha : a < N) : r < N := by
  induction h with
  | self => exact ha
  | up _ _ ih => exact ih (hp _ ha)

theorem unionFind_spec (hp : ∀ x, x < N → p x < N) (ha : a < N) (h : Root p a r) (hfuel : N ≤ fuel) :
    ∃ p', unionFind fuel a p = some (r, p') ∧ Keeps N p p' := by
  obtain ⟨k, h⟩ := h
  have hk : k < N := by
    have := h.lt_card (Finset.mem_range.mpr ha) fun x hx =>
      Finset.mem_range.mpr (hp x (Finset.mem_range.mp hx))
    rwa [Finset.card_range] at this
  obtain ⟨p', hc, hroots, hlt⟩ := compress_spec h hp ha (rootIn_lt h hp ha) (hk.trans_le hfuel)
  refine ⟨p', ?_, hroots, hlt⟩
  simp [unionFind, findRoot_spec h (hk.trans_le hfuel), hc]

end UnionFind

/-- The two datapoints share a coordinate. -/
def Conflict (coords : ℕ → List ℕ) (d e : ℕ) : Prop := ∃ c ∈ coords d, c ∈ coords e

/-- The datapoints of a batch. -/
def InBatch (n start d : ℕ) : Prop := start ≤ d ∧ d < start+n

/-- A chain of conflicts within the batch. -/
def Connected (coords : ℕ → List ℕ) (n start : ℕ) : ℕ → ℕ → Prop :=
  Relation.EqvGen (fun d e => InBatch n start d ∧ InBatch n start e ∧ Conflict coords d e)

section Components
variable {coords : ℕ → List ℕ} {n start fuel N : ℕ}

/-- The pairs that the first `m` rounds join: a datapoint and a coordinate of its. -/
def Edge (coords : ℕ → List ℕ) (n start m a b : ℕ) : Prop :=
  a < m ∧ ∃ c ∈ coords (start+a), b = n+c

theorem joinCoordinates_spec {cs : List ℕ} {tree : ℕ → ℕ} {E : ℕ → ℕ → Prop} {i target : ℕ}
    (h : Represents tree E) (hlt : ∀ x, x < N → tree x < N) (hi : Root tree i target) (hiN : i < N)
    (hcs : ∀ c ∈ cs, n+c < N) (hfuel : N ≤ fuel) :
    ∃ tree', cs.foldlM (joinCoordinate fuel n target) tree = some tree' ∧
      Represents tree' (fun a b => E a b ∨ (a = i ∧ ∃ c ∈ cs, b = n+c)) ∧
      ∀ x, x < N → tree' x < N := by
  induction cs generalizing tree E with
  | nil => exact ⟨tree, rfl, by simpa using h, hlt⟩
  | cons c cs ih =>
    have hc := hcs c List.mem_cons_self
    obtain ⟨r, hr⟩ := h.1 (n+c)
    obtain ⟨tree₁, hfind, hkeep⟩ := unionFind_spec hlt hc hr hfuel
    have hlink := (h.of_roots hkeep.roots).link (hkeep.roots _ _ hr) (hkeep.roots _ _ hi)
    have htarget : target < N := by
      obtain ⟨_, hi⟩ := hi
      exact rootIn_lt hi hlt hiN
    have hi' : Root (Function.update tree₁ r target) i target := by
      have := (hkeep.roots _ _ hi).link (hkeep.roots _ _ hr).root (hkeep.roots _ _ hi).root
      rwa [ite_self] at this
    have hlt' : ∀ x, x < N → Function.update tree₁ r target x < N := by
      intro x hx
      by_cases hxr : x = r
      · rwa [hxr, Function.update_self]
      · rw [Function.update_of_ne hxr]
        exact hkeep.lt x hx
    obtain ⟨tree', hrun, hrep, hlt''⟩ := ih hlink hlt' hi' fun c' hc' =>
      hcs c' (List.mem_cons_of_mem c hc')
    refine ⟨tree', ?_, ?_, hlt''⟩
    · simp [joinCoordinate, hfind, hrun]
    · convert hrep using 3 with a b
      simp only [List.mem_cons, exists_eq_or_imp]
      tauto

/-- The tree of the first loop. -/
theorem joinDatapoints_spec {m : ℕ} (hm : m ≤ n) (hcs : ∀ i c, i < n → c ∈ coords (start+i) → n+c < N)
    (hn : n ≤ N) (hfuel : N ≤ fuel) :
    ∃ tree, (List.range m).foldlM (joinDatapoint coords fuel n start) id = some tree ∧
      Represents tree (Edge coords n start m) ∧ ∀ x, x < N → tree x < N := by
  induction m with
  | zero =>
    refine ⟨id, rfl, ?_, fun _ h => h⟩
    convert represents_id using 3 with a b
    simp [Edge]
  | succ m ih =>
    obtain ⟨tree, hrun, hrep, hlt⟩ := ih (by omega)
    obtain ⟨target, ht⟩ := hrep.1 m
    obtain ⟨tree₁, hfind, hkeep⟩ := unionFind_spec hlt (by omega : m < N) ht hfuel
    obtain ⟨tree', hjoin, hrep', hlt'⟩ := joinCoordinates_spec (hrep.of_roots hkeep.roots) hkeep.lt
      (hkeep.roots _ _ ht) (by omega) (fun c hc => hcs m c (by omega) hc) hfuel
    refine ⟨tree', ?_, ?_, hlt'⟩
    · rw [List.range_succ, List.foldlM_append, hrun]
      simp [joinDatapoint, hfind, hjoin]
    · convert hrep' using 3 with a b
      simp only [Edge, Nat.lt_succ_iff_lt_or_eq]
      constructor
      · rintro ⟨ha | rfl, h⟩
        · exact .inl ⟨ha, h⟩
        · exact .inr ⟨rfl, h⟩
      · rintro (⟨ha, h⟩ | ⟨rfl, h⟩)
        · exact ⟨.inl ha, h⟩
        · exact ⟨.inr rfl, h⟩

/-- The node of the tree stands for the datapoint, or for a coordinate of it. -/
def Touches (coords : ℕ → List ℕ) (n start a d : ℕ) : Prop :=
  InBatch n start d ∧ (start+a = d ∨ ∃ c ∈ coords d, a = n+c)

theorem connected_of_eqvGen {a b : ℕ} (h : Relation.EqvGen (Edge coords n start n) a b) :
    a = b ∨ ((∃ d, Touches coords n start a d) ∧ (∃ d, Touches coords n start b d) ∧
      ∀ d e, Touches coords n start a d → Touches coords n start b e →
        Connected coords n start d e) := by
  -- two datapoints at one node are the same or have the coordinate in common
  have hself {a d e : ℕ} (hd : Touches coords n start a d) (he : Touches coords n start a e) :
      Connected coords n start d e := by
    obtain ⟨hdb, had⟩ := hd
    obtain ⟨heb, hae⟩ := he
    unfold InBatch at hdb heb
    rcases had with had | ⟨c, hc, hac⟩ <;> rcases hae with hae | ⟨c', hc', hac'⟩
    · rw [← had, ← hae]
      exact .refl _
    · omega
    · omega
    · have hcc : c = c' := by omega
      exact .rel _ _ ⟨hdb, heb, c, hc, hcc ▸ hc'⟩
  induction h with
  | rel a b h =>
    obtain ⟨ha, c, hc, rfl⟩ := h
    have hb : InBatch n start (start+a) := ⟨by omega, by omega⟩
    have hta : Touches coords n start a (start+a) := ⟨hb, .inl rfl⟩
    have htc : Touches coords n start (n+c) (start+a) := ⟨hb, .inr ⟨c, hc, rfl⟩⟩
    exact .inr ⟨⟨_, hta⟩, ⟨_, htc⟩, fun d e hd he => .trans _ _ _ (hself hd hta) (hself htc he)⟩
  | refl => exact .inl rfl
  | symm a b _ ih =>
    rcases ih with rfl | ⟨ha, hb, h⟩
    · exact .inl rfl
    · exact .inr ⟨hb, ha, fun d e hd he => .symm _ _ (h e d he hd)⟩
  | trans a b c _ _ ih ih' =>
    rcases ih with rfl | ⟨ha, ⟨x, hx⟩, h⟩
    · exact ih'
    · rcases ih' with rfl | ⟨-, hc, h'⟩
      · exact .inr ⟨ha, ⟨x, hx⟩, h⟩
      · exact .inr ⟨ha, hc, fun d e hd he => .trans _ _ _ (h d x hd hx) (h' x e hx he)⟩

theorem eqvGen_of_connected {d e : ℕ} (h : Connected coords n start d e) :
    Relation.EqvGen (Edge coords n start n) (d-start) (e-start) := by
  induction h with
  | rel d e h =>
    obtain ⟨⟨hd, hd'⟩, ⟨he, he'⟩, c, hc, hc'⟩ := h
    have hdc : Edge coords n start n (d-start) (n+c) :=
      ⟨by omega, c, by rwa [Nat.add_sub_cancel' hd], rfl⟩
    have hec : Edge coords n start n (e-start) (n+c) :=
      ⟨by omega, c, by rwa [Nat.add_sub_cancel' he], rfl⟩
    exact .trans _ _ _ (.rel _ _ hdc) (.symm _ _ (.rel _ _ hec))
  | refl => exact .refl _
  | symm _ _ _ ih => exact .symm _ _ ih
  | trans _ _ _ _ _ ih ih' => exact .trans _ _ _ ih ih'

theorem eqvGen_iff_connected {i j : ℕ} (hi : i < n) (hj : j < n) :
    Relation.EqvGen (Edge coords n start n) i j ↔ Connected coords n start (start+i) (start+j) := by
  constructor
  · intro h
    rcases connected_of_eqvGen h with rfl | ⟨-, -, h⟩
    · exact .refl _
    · exact h _ _ ⟨⟨by omega, by omega⟩, .inl rfl⟩ ⟨⟨by omega, by omega⟩, .inl rfl⟩
  · intro h
    have := eqvGen_of_connected h
    rwa [Nat.add_sub_cancel_left, Nat.add_sub_cancel_left] at this

/-- The components of the first `m` datapoints, grouped by `root`. -/
structure Grouped (root : ℕ → ℕ) (start m : ℕ) (c : Components) : Prop where
  nodup : c.keys.Nodup
  mem_keys : ∀ k, k ∈ c.keys ↔ ∃ i, i < m ∧ root i = k
  points : ∀ k, c.points k = ((List.range m).filter (root · = k)).map (start+·)

theorem Grouped.pushBack {root : ℕ → ℕ} {m : ℕ} {c : Components} (h : Grouped root start m c) :
    Grouped root start (m+1) (c.pushBack (root m) (start+m)) := by
  refine ⟨?_, ?_, ?_⟩
  · simp only [Components.pushBack]
    split
    · exact h.nodup
    next hk =>
      exact h.nodup.append (List.nodup_singleton _) (by simpa using hk)
  · intro k
    have hkeys : k ∈ (c.pushBack (root m) (start+m)).keys ↔ k ∈ c.keys ∨ k = root m := by
      simp only [Components.pushBack]
      split
      next hk =>
        constructor
        · exact .inl
        · rintro (hk' | rfl)
          · exact hk'
          · exact hk
      next => simp
    rw [hkeys, h.mem_keys]
    constructor
    · rintro (⟨i, hi, rfl⟩ | rfl)
      · exact ⟨i, by omega, rfl⟩
      · exact ⟨m, by omega, rfl⟩
    · rintro ⟨i, hi, rfl⟩
      rcases Nat.lt_succ_iff_lt_or_eq.mp hi with hi | rfl
      · exact .inl ⟨i, hi, rfl⟩
      · exact .inr rfl
  · intro k
    rw [List.range_succ, List.filter_append, List.map_append, ← h.points k]
    simp only [Components.pushBack]
    by_cases hk : root m = k
    · subst hk
      simp
    · rw [Function.update_of_ne (Ne.symm hk)]
      simp [hk]

/-- The second loop groups the datapoints by their roots in the tree. -/
theorem collect_spec (start : ℕ) {tree : ℕ → ℕ} {root : ℕ → ℕ} (hroot : ∀ a, Root tree a (root a))
    (hlt : ∀ x, x < N → tree x < N) (hn : n ≤ N) (hfuel : N ≤ fuel) {m : ℕ} (hm : m ≤ n) :
    ∃ tree' c, (List.range m).foldlM (collect fuel start) (tree, ⟨[], fun _ => []⟩) =
        some (tree', c) ∧ Keeps N tree tree' ∧ Grouped root start m c := by
  induction m with
  | zero =>
    refine ⟨tree, _, rfl, ⟨fun _ _ h => h, hlt⟩, List.nodup_nil, ?_, ?_⟩
    · intro k
      simp
    · intro k
      rfl
  | succ m ih =>
    obtain ⟨tree', c, hrun, hkeep, hc⟩ := ih (by omega)
    obtain ⟨tree'', hfind, hkeep'⟩ := unionFind_spec hkeep.lt (by omega : m < N)
      (hkeep.roots _ _ (hroot m)) hfuel
    refine ⟨tree'', _, ?_, ⟨fun x s hx => hkeep'.roots x s (hkeep.roots x s hx), hkeep'.lt⟩, hc.pushBack⟩
    rw [List.range_succ, List.foldlM_append, hrun]
    simp [collect, hfind]

/-- `ComputeCC` comes to an end. Its components are the connected components of the batch. -/
theorem computeCC_spec (hcs : ∀ i c, i < n → c ∈ coords (start+i) → n+c < N) (hn : n ≤ N)
    (hfuel : N ≤ fuel) :
    ∃ c root, computeCC coords fuel n start = some c ∧ Grouped root start n c ∧
      ∀ i j, i < n → j < n →
        (root i = root j ↔ Connected coords n start (start+i) (start+j)) := by
  obtain ⟨tree, hrun, hrep, hlt⟩ := joinDatapoints_spec le_rfl hcs hn hfuel
  choose root hroot using hrep.1
  obtain ⟨tree', c, hrun', -, hc⟩ := collect_spec start hroot hlt hn hfuel le_rfl
  refine ⟨c, root, ?_, hc, ?_⟩
  · simp [computeCC, hrun, hrun']
  · intro i j hi hj
    rw [← eqvGen_iff_connected hi hj, ← hrep.2 i j]
    constructor
    · intro h
      exact ⟨root i, hroot i, h ▸ hroot j⟩
    · rintro ⟨r, hri, hrj⟩
      rw [(hroot i).unique hri, (hroot j).unique hrj]

end Components

/-- What the threads get of a batch. -/
structure BatchSplit (coords : ℕ → List ℕ) (n start nThreads : ℕ) (part : ℕ → List ℕ) : Prop where
  /-- each datapoint once -/
  once : ((List.range nThreads).flatMap part).Perm (List.range' start n)
  apart : ∀ {t t' d e}, t < nThreads → t' < nThreads → t ≠ t' → d ∈ part t → e ∈ part t' →
    ¬Conflict coords d e
  /-- a thread keeps the order of the data set where it matters -/
  ordered : ∀ t, t < nThreads → (part t).Pairwise (fun d e => Conflict coords d e → d < e)
  balanced : ∀ K, (∀ s : Finset ℕ, (∀ d ∈ s, InBatch n start d) →
      (∀ d ∈ s, ∀ e ∈ s, Connected coords n start d e) → s.card ≤ K) →
    ∀ t t', t < nThreads → t' < nThreads → (part t).length ≤ (part t').length+K

theorem BatchSplit.congr {coords : ℕ → List ℕ} {n start nThreads : ℕ} {part part' : ℕ → List ℕ}
    (h : BatchSplit coords n start nThreads part) (hpart : ∀ t, t < nThreads → part t = part' t) :
    BatchSplit coords n start nThreads part' := by
  refine ⟨?_, ?_, ?_, ?_⟩
  · have hflat : (List.range nThreads).flatMap part = (List.range nThreads).flatMap part' :=
      List.flatMap_congr fun t ht => hpart t (List.mem_range.mp ht)
    rw [← hflat]
    exact h.once
  · intro t t' d e ht ht' htt hd he
    rw [← hpart t ht] at hd
    rw [← hpart t' ht'] at he
    exact h.apart ht ht' htt hd he
  · intro t ht
    rw [← hpart t ht]
    exact h.ordered t ht
  · intro K hK t t' ht ht'
    rw [← hpart t ht, ← hpart t' ht']
    exact h.balanced K hK t t' ht ht'

section Batch
variable {coords : ℕ → List ℕ} {n start nThreads : ℕ} {c : Components} {root : ℕ → ℕ}
variable {Q : Queue (Prod.snd : ThreadLoadPair → ℕ)}

/-- The datapoints of the keys that a thread is given. -/
def share (c : Components) (ks : List ℕ) (assign : ℕ → ℕ) (t : ℕ) : List ℕ :=
  (ks.filter (assign · = t)).flatMap c.points

theorem share_append {ks : List ℕ} {assign : ℕ → ℕ} {k : ℕ} (hk : k ∉ ks) (t t' : ℕ) :
    share c (ks ++ [k]) (Function.update assign k t) t' =
      share c ks assign t' ++ if t = t' then c.points k else [] := by
  have hold : ks.filter (Function.update assign k t · = t') = ks.filter (assign · = t') := by
    apply List.filter_congr
    intro x hx
    have hxk : x ≠ k := by
      rintro rfl
      exact hk hx
    rw [Function.update_of_ne hxk]
  rw [share, List.filter_append, hold, List.flatMap_append, share]
  by_cases ht : t = t' <;> simp [ht]

theorem addDatapoints_eq (p : DatapointPartitions) (t : ℕ) (ds : List ℕ) :
    ds.foldl (DatapointPartitions.addDatapointToThread t) p =
      { p with datapointsPerThread :=
          Function.update p.datapointsPerThread t (p.datapointsPerThread t ++ ds) } := by
  induction ds generalizing p with
  | nil => simp
  | cons d ds ih =>
    rw [List.foldl_cons, ih]
    simp [DatapointPartitions.addDatapointToThread]

/-- The partitions of `p₀` with the components of some keys added. -/
structure Filling (p₀ : DatapointPartitions) (c : Components) (ks : List ℕ) (assign : ℕ → ℕ)
    (p : DatapointPartitions) : Prop where
  nThreads : p.nThreads = p₀.nThreads
  batchIndices : p.batchIndices = p₀.batchIndices
  assigned : ∀ k ∈ ks, assign k < p₀.nThreads
  points : ∀ t, p.datapointsPerThread t = p₀.datapointsPerThread t ++ share c ks assign t
  threads : (p.threadLoadHeap.map Prod.fst).Perm (List.range p₀.nThreads)
  loads : ∀ e ∈ p.threadLoadHeap, e.2 = (share c ks assign e.1).length
  within : ∀ K, (∀ k ∈ ks, (c.points k).length ≤ K) → Within Prod.snd K p.threadLoadHeap

/-- A component goes to a least loaded thread. -/
theorem Filling.add {p₀ p : DatapointPartitions} {ks : List ℕ} {assign : ℕ → ℕ}
    (h : Filling p₀ c ks assign p) (hn : 0 < p₀.nThreads) {k : ℕ} (hk : k ∉ ks) :
    Filling p₀ c (ks ++ [k]) (Function.update assign k (Q.top p.threadLoadHeap).1)
      (p.addDatapointsToLeastLoadedThread Q (c.points k)) := by
  have hne : p.threadLoadHeap ≠ [] := by
    intro hnil
    have := h.threads.length_eq
    rw [hnil, List.length_range] at this
    exact hn.ne this
  have htop := Q.top_mem hne
  obtain ⟨⟨t, w⟩, htopeq⟩ : ∃ e, Q.top p.threadLoadHeap = e := ⟨_, rfl⟩
  rw [htopeq] at htop ⊢
  have ht : t < p₀.nThreads :=
    List.mem_range.mp (h.threads.mem_iff.mp (List.mem_map_of_mem (f := Prod.fst) htop))
  have hw := h.loads _ htop
  have hperm := Q.replace_perm hne (t, w+(c.points k).length)
  rw [htopeq] at hperm
  have hadd : p.addDatapointsToLeastLoadedThread Q (c.points k) =
      { p with
        datapointsPerThread := Function.update p.datapointsPerThread t
          (p.datapointsPerThread t ++ c.points k)
        threadLoadHeap := Q.replace p.threadLoadHeap (t, w+(c.points k).length) } := by
    simp only [DatapointPartitions.addDatapointsToLeastLoadedThread, addDatapoints_eq, htopeq]
  rw [hadd]
  have hthreads : ((Q.replace p.threadLoadHeap (t, w+(c.points k).length)).map Prod.fst).Perm
      (List.range p₀.nThreads) := by
    have := hperm.map Prod.fst
    simp only [List.map_cons] at this
    exact (List.perm_cons t).mp (this.trans ((h.threads.cons t)))
  have hnodup : ((Q.replace p.threadLoadHeap (t, w+(c.points k).length)).map Prod.fst).Nodup :=
    hthreads.nodup_iff.mpr List.nodup_range
  refine ⟨h.nThreads, h.batchIndices, ?_, ?_, hthreads, ?_, ?_⟩
  · intro k' hk'
    by_cases hkk : k' = k
    · rw [hkk, Function.update_self]
      exact ht
    · rw [Function.update_of_ne hkk]
      exact h.assigned k' ((List.mem_append.mp hk').resolve_right (by simpa using hkk))
  · intro t'
    rw [share_append hk]
    by_cases htt : t = t'
    · subst htt
      rw [if_pos rfl]
      simp only [Function.update_self, h.points, List.append_assoc]
    · rw [if_neg htt]
      simp only [Function.update_of_ne (Ne.symm htt), h.points, List.append_nil]
  · intro e he
    rw [share_append hk]
    rcases Q.mem_replace_of_nodup hnodup he with ⟨he, het⟩ | rfl
    · rw [if_neg het.symm, List.append_nil]
      exact h.loads e he
    · rw [if_pos rfl, List.length_append, ← hw]
  · intro K hK
    have hkK := hK k (by simp)
    refine Within.replace Q (h.within K fun k' hk' => hK k' (List.mem_append_left _ hk')) hne ?_ ?_
    · rw [htopeq]
      exact Nat.le_add_right _ _
    · rw [htopeq]
      exact Nat.add_le_add_left hkK w

/-- All components of a batch. -/
theorem filling_foldl {p₀ : DatapointPartitions} (hn : 0 < p₀.nThreads)
    (hheap : p₀.threadLoadHeap = (List.range p₀.nThreads).map (·, 0)) {ks : List ℕ}
    (hks : ks.Nodup) :
    ∃ assign, Filling p₀ c ks assign
      ((ks.map c.points).foldl (·.addDatapointsToLeastLoadedThread Q) p₀) := by
  induction ks using List.reverseRecOn with
  | nil =>
    refine ⟨fun _ => 0, rfl, rfl, by simp, by simp [share], ?_, ?_, ?_⟩
    · simp [hheap, Function.comp_def]
    · intro e he
      simp only [List.map_nil, List.foldl_nil, hheap, List.mem_map] at he
      obtain ⟨t, -, rfl⟩ := he
      simp [share]
    · intro K _ e he e' _
      simp only [List.map_nil, List.foldl_nil, hheap, List.mem_map] at he
      obtain ⟨t, -, rfl⟩ := he
      exact Nat.zero_le _
  | append_singleton ks k ih =>
    have hk : k ∉ ks := fun hk => (List.nodup_append.mp hks).2.2 k hk k (by simp) rfl
    obtain ⟨assign, h⟩ := ih (List.nodup_append.mp hks).1
    rw [List.map_append, List.foldl_append]
    exact ⟨_, h.add hn hk⟩

/-- A list, value by value of `f`. -/
theorem flatMap_filter_perm {α β : Type*} [DecidableEq β] (f : α → β) {ks : List β} (hks : ks.Nodup)
    {l : List α} (hl : ∀ x ∈ l, f x ∈ ks) : (ks.flatMap (fun k => l.filter (f · = k))).Perm l := by
  induction ks generalizing l with
  | nil =>
    have hnil : l = [] := List.eq_nil_iff_forall_not_mem.mpr fun x hx => List.not_mem_nil (hl x hx)
    rw [hnil]
    exact List.Perm.refl _
  | cons k ks ih =>
    rw [List.nodup_cons] at hks
    have hrest : ks.flatMap (fun k' => l.filter (f · = k')) =
        ks.flatMap (fun k' => (l.filter (fun x => !decide (f x = k))).filter (f · = k')) := by
      apply List.flatMap_congr
      intro k' hk'
      rw [List.filter_filter]
      apply List.filter_congr
      intro x _
      have hkk : k' ≠ k := by
        rintro rfl
        exact hks.1 hk'
      by_cases hx : f x = k' <;> simp [hx, hkk]
    rw [List.flatMap_cons, hrest]
    refine ((ih hks.2 ?_).append_left _).trans (List.filter_append_perm _ l)
    intro x hx
    obtain ⟨hxl, hxk⟩ := List.mem_filter.mp hx
    exact (List.mem_cons.mp (hl x hxl)).resolve_left (by simpa using hxk)

theorem Grouped.mem_points (h : Grouped root start n c) {k d : ℕ} :
    d ∈ c.points k ↔ ∃ i, i < n ∧ root i = k ∧ start+i = d := by
  simp [h.points k, and_assoc]

theorem mem_share {ks : List ℕ} {assign : ℕ → ℕ} {t d : ℕ} :
    d ∈ share c ks assign t ↔ ∃ k ∈ ks, assign k = t ∧ d ∈ c.points k := by
  simp [share, and_assoc]

variable {p₀ p : DatapointPartitions} {ks : List ℕ} {assign : ℕ → ℕ}

/-- The components of a batch are its datapoints. -/
theorem Grouped.perm (hc : Grouped root start n c) :
    (c.keys.flatMap c.points).Perm (List.range' start n) := by
  have hpoints : (c.keys.flatMap (fun k => (List.range n).filter (root · = k))).Perm (List.range n) :=
    flatMap_filter_perm root hc.nodup fun i hi =>
      (hc.mem_keys _).mpr ⟨i, List.mem_range.mp hi, rfl⟩
  have hmap : c.keys.flatMap c.points =
      (c.keys.flatMap (fun k => (List.range n).filter (root · = k))).map (start+·) := by
    rw [List.map_flatMap]
    exact List.flatMap_congr fun k _ => hc.points k
  rw [hmap, List.range'_eq_map_range]
  exact hpoints.map _

theorem Filling.once (hc : Grouped root start n c) (h : Filling p₀ c ks assign p)
    (hks : ks.Perm c.keys) :
    ((List.range p₀.nThreads).flatMap (share c ks assign)).Perm (List.range' start n) := by
  have hkeys : ((List.range p₀.nThreads).flatMap (fun t => ks.filter (assign · = t))).Perm ks :=
    flatMap_filter_perm assign List.nodup_range fun k hk => List.mem_range.mpr (h.assigned k hk)
  have hsplit : (List.range p₀.nThreads).flatMap (share c ks assign) =
      ((List.range p₀.nThreads).flatMap (fun t => ks.filter (assign · = t))).flatMap c.points := by
    rw [List.flatMap_assoc]
    rfl
  rw [hsplit]
  exact ((hkeys.trans hks).flatMap_right c.points).trans hc.perm

/-- Datapoints that conflict have one key. -/
theorem Grouped.key_unique (hc : Grouped root start n c)
    (hroot : ∀ i j, i < n → j < n → (root i = root j ↔ Connected coords n start (start+i) (start+j)))
    {k k' d e : ℕ} (hd : d ∈ c.points k) (he : e ∈ c.points k') (hde : Conflict coords d e) :
    k = k' := by
  obtain ⟨i, hi, rfl, rfl⟩ := hc.mem_points.mp hd
  obtain ⟨j, hj, rfl, rfl⟩ := hc.mem_points.mp he
  rw [hroot i j hi hj]
  exact .rel _ _ ⟨⟨by omega, by omega⟩, ⟨by omega, by omega⟩, hde⟩

theorem Grouped.pairwise_points (hc : Grouped root start n c) (k : ℕ) :
    (c.points k).Pairwise (· < ·) := by
  rw [hc.points k, List.pairwise_map]
  exact (List.pairwise_lt_range.filter _).imp fun h => Nat.add_lt_add_left h start

/-- The two loops of `ComputeCC` come to an end. Each datapoint of the batch is in one component, a
component is in the order of the data set, and two datapoints are in one component exactly where a
chain of shared coordinates within the batch joins them. -/
theorem cyclades_components (coords : ℕ → List ℕ) {fuel n start batchSize modelSize : ℕ}
    (hn : n ≤ batchSize) (hcoords : ∀ d c, InBatch n start d → c ∈ coords d → c < modelSize)
    (hfuel : batchSize+modelSize ≤ fuel) :
    ∃ c, computeCC coords fuel n start = some c ∧
      (c.keys.flatMap c.points).Perm (List.range' start n) ∧
      (∀ k, (c.points k).Pairwise (· < ·)) ∧
      ∀ d e, InBatch n start d → InBatch n start e →
        ((∃ k, d ∈ c.points k ∧ e ∈ c.points k) ↔ Connected coords n start d e) := by
  have hlt : ∀ i c, i < n → c ∈ coords (start+i) → n+c < batchSize+modelSize := by
    intro i c hi hc
    have := hcoords (start+i) c ⟨by omega, by omega⟩ hc
    omega
  obtain ⟨c, root, hrun, hc, hroot⟩ := computeCC_spec hlt
    (hn.trans (Nat.le_add_right _ modelSize)) hfuel
  refine ⟨c, hrun, hc.perm, hc.pairwise_points, ?_⟩
  rintro d e ⟨hd, hd'⟩ ⟨he, he'⟩
  obtain ⟨i, rfl⟩ := Nat.exists_eq_add_of_le hd
  obtain ⟨j, rfl⟩ := Nat.exists_eq_add_of_le he
  rw [← hroot i j (by omega) (by omega)]
  constructor
  · rintro ⟨k, hi, hj⟩
    obtain ⟨i', -, hi', hii⟩ := hc.mem_points.mp hi
    obtain ⟨j', -, hj', hjj⟩ := hc.mem_points.mp hj
    rw [← Nat.add_left_cancel hii, ← Nat.add_left_cancel hjj, hi', hj']
  · intro h
    exact ⟨root i, hc.mem_points.mpr ⟨i, by omega, rfl, rfl⟩,
      hc.mem_points.mpr ⟨j, by omega, h.symm, rfl⟩⟩

/-- Three datapoints, of which the first and the last share coordinate 1. -/
theorem cyclades_components_small :
    ∃ c, computeCC (fun d => [1+d%2]) 6 3 0 = some c ∧ ∃ k, 0 ∈ c.points k ∧ 2 ∈ c.points k := by
  have hlt : ∀ d c, InBatch 3 0 d → c ∈ [1+d%2] → c < 3 := by
    intro d c _ hc
    have := List.mem_singleton.mp hc
    omega
  obtain ⟨c, hrun, -, -, h⟩ := cyclades_components (fun d => [1+d%2]) (le_refl 3) hlt (le_refl 6)
  have hb : InBatch 3 0 0 ∧ InBatch 3 0 2 := ⟨⟨by decide, by decide⟩, ⟨by decide, by decide⟩⟩
  exact ⟨c, hrun, (h 0 2 hb.1 hb.2).mpr (.rel _ _ ⟨hb.1, hb.2, 1, by decide, by decide⟩)⟩

theorem Filling.batchSplit (hc : Grouped root start n c)
    (hroot : ∀ i j, i < n → j < n → (root i = root j ↔ Connected coords n start (start+i) (start+j)))
    (h : Filling p₀ c ks assign p) (hks : ks.Perm c.keys) :
    BatchSplit coords n start p₀.nThreads (share c ks assign) := by
  refine ⟨h.once hc hks, ?_, ?_, ?_⟩
  · intro t t' d e _ _ htt hd he hde
    obtain ⟨k, -, hkt, hd⟩ := mem_share.mp hd
    obtain ⟨k', -, hkt', he⟩ := mem_share.mp he
    rw [hc.key_unique hroot hd he hde] at hkt
    exact htt (hkt.symm.trans hkt')
  · intro t _
    rw [share, List.pairwise_flatMap]
    have hinner (k : ℕ) : (c.points k).Pairwise (fun d e => Conflict coords d e → d < e) := by
      refine (hc.pairwise_points k).imp ?_
      intro d e hlt _
      exact hlt
    refine ⟨fun k _ => hinner k, ?_⟩
    have hnodup : (ks.filter (assign · = t)).Nodup := (hks.nodup_iff.mpr hc.nodup).filter _
    refine hnodup.imp ?_
    intro k k' hkk d hd e he hde
    exact absurd (hc.key_unique hroot hd he hde) hkk
  · intro K hK t t' ht ht'
    have hlen : ∀ k ∈ ks, (c.points k).length ≤ K := by
      intro k _
      have hnodup : (c.points k).Nodup := (hc.pairwise_points k).imp fun hlt => hlt.ne
      rw [← List.toFinset_card_of_nodup hnodup]
      apply hK
      · intro d hd
        obtain ⟨i, hi, -, rfl⟩ := hc.mem_points.mp (List.mem_toFinset.mp hd)
        exact ⟨by omega, by omega⟩
      · intro d hd e he
        obtain ⟨i, hi, hik, rfl⟩ := hc.mem_points.mp (List.mem_toFinset.mp hd)
        obtain ⟨j, hj, hjk, rfl⟩ := hc.mem_points.mp (List.mem_toFinset.mp he)
        exact (hroot i j hi hj).mp (hik.trans hjk.symm)
    have hload {t : ℕ} (ht : t < p₀.nThreads) :
        ∃ e ∈ p.threadLoadHeap, e.2 = (share c ks assign t).length := by
      obtain ⟨e, he, rfl⟩ := List.mem_map.mp (h.threads.mem_iff.mpr (List.mem_range.mpr ht))
      exact ⟨e, he, h.loads e he⟩
    obtain ⟨e, he, hel⟩ := hload ht
    obtain ⟨e', he', hel'⟩ := hload ht'
    have := h.within K hlen e he e' he'
    rwa [hel, hel'] at this

end Batch

section Runs
variable {coords : ℕ → List ℕ} {fuel batchSize total nThreads modelSize : ℕ}
variable {Q : Queue (Prod.snd : ThreadLoadPair → ℕ)} {order : KeyOrder}

/-- The partitions after `m` batches; `part b t` is what thread `t` got of batch `b`. -/
structure Partitioned (nThreads : ℕ) (part : ℕ → ℕ → List ℕ) (m : ℕ) (p : DatapointPartitions) :
    Prop where
  threads : p.nThreads = nThreads
  heap : p.threadLoadHeap = (List.range nThreads).map (·, 0)
  points : ∀ t, p.datapointsPerThread t = (List.range m).flatMap (part · t)
  indices : ∀ t, t < nThreads → p.batchIndices t =
    (List.range (m+1)).map (fun b => ((List.range b).flatMap (part · t)).length)

theorem Partitioned.congr {part : ℕ → ℕ → List ℕ} {m : ℕ} {p : DatapointPartitions}
    (h : Partitioned nThreads part m p) (part' : ℕ → ℕ → List ℕ) (hpart : ∀ b, b < m → part b = part' b) :
    Partitioned nThreads part' m p := by
  have hflat {b : ℕ} (hb : b ≤ m) (t : ℕ) :
      (List.range b).flatMap (part · t) = (List.range b).flatMap (part' · t) := by
    apply List.flatMap_congr
    intro a ha
    rw [hpart a (by have := List.mem_range.mp ha; omega)]
  refine ⟨h.threads, h.heap, fun t => ?_, fun t ht => ?_⟩
  · rw [h.points t, hflat le_rfl]
  · rw [h.indices t ht]
    apply List.map_congr_left
    intro b hb
    rw [hflat (by have := List.mem_range.mp hb; omega)]

/-- One more batch. -/
theorem Partitioned.add (Q : Queue (Prod.snd : ThreadLoadPair → ℕ)) (order : KeyOrder)
    {part : ℕ → ℕ → List ℕ} {m : ℕ} {p : DatapointPartitions} (h : Partitioned nThreads part m p) (hn : 0 < nThreads) {n start : ℕ} {c : Components}
    {root : ℕ → ℕ} (hc : Grouped root start n c)
    (hroot : ∀ i j, i < n → j < n → (root i = root j ↔ Connected coords n start (start+i) (start+j))) :
    ∃ seg, Partitioned nThreads (Function.update part m seg) (m+1) (addBatch Q order p c) ∧
      BatchSplit coords n start nThreads seg := by
  have hheap : p.threadLoadHeap = (List.range p.nThreads).map (·, 0) := by
    rw [h.threads]
    exact h.heap
  have hks := (order.perm c.keys).nodup_iff.mpr hc.nodup
  obtain ⟨assign, hf⟩ := filling_foldl (c := c) (Q := Q) (h.threads ▸ hn) hheap hks
  have hsplit := hf.batchSplit hc hroot (order.perm c.keys)
  rw [h.threads] at hsplit
  refine ⟨share c (order.keys c.keys) assign, ?_, hsplit⟩
  have h' := h.congr (Function.update part m (share c (order.keys c.keys) assign)) fun b hb =>
    (Function.update_of_ne hb.ne _ _).symm
  have hpoints (t : ℕ) : (addBatch Q order p c).datapointsPerThread t =
      (List.range (m+1)).flatMap
        (Function.update part m (share c (order.keys c.keys) assign) · t) := by
    rw [List.range_succ, List.flatMap_append, ← h'.points t]
    simpa [addBatch, DatapointPartitions.startNewBatch, DatapointPartitions.clearThreadLoadHeap]
      using hf.points t
  refine ⟨?_, ?_, hpoints, ?_⟩
  · exact hf.nThreads.trans h.threads
  · have := hf.nThreads.trans h.threads
    simp [addBatch, DatapointPartitions.startNewBatch, DatapointPartitions.clearThreadLoadHeap, this]
  · intro t ht
    have hnt := hf.nThreads.trans h.threads
    have hlast : (addBatch Q order p c).batchIndices t = p.batchIndices t ++
        [((addBatch Q order p c).datapointsPerThread t).length] := by
      simp [addBatch, DatapointPartitions.startNewBatch, DatapointPartitions.clearThreadLoadHeap,
        hnt, ht, hf.batchIndices]
    rw [hlast, hpoints t, h'.indices t ht, List.range_succ (n := m+1), List.map_append]
    rfl

section Access
variable {part : ℕ → ℕ → List ℕ} {m : ℕ} {p : DatapointPartitions}

theorem flatMap_range_split (f : ℕ → List ℕ) {b m : ℕ} (hb : b < m) :
    ∃ rest, (List.range m).flatMap f = (List.range b).flatMap f ++ (f b ++ rest) := by
  induction m with
  | zero => exact absurd hb (Nat.not_lt_zero b)
  | succ m ih =>
    rw [List.range_succ, List.flatMap_append]
    rcases Nat.lt_succ_iff_lt_or_eq.mp hb with hb | rfl
    · obtain ⟨rest, h⟩ := ih hb
      refine ⟨rest ++ [m].flatMap f, ?_⟩
      rw [h, List.append_assoc, List.append_assoc]
    · exact ⟨[], by simp⟩

theorem Partitioned.numBatches (h : Partitioned nThreads part m p) (hn : 0 < nThreads) :
    p.numBatches = m+1 := by
  simp [DatapointPartitions.numBatches, h.indices 0 hn]

theorem Partitioned.index (h : Partitioned nThreads part m p) {t b : ℕ} (ht : t < nThreads)
    (hb : b ≤ m) : (p.batchIndices t).getD b 0 = ((List.range b).flatMap (part · t)).length := by
  have hb' : b < m+1 := by omega
  rw [h.indices t ht, List.getD_eq_getElem?_getD, List.getElem?_map, List.getElem?_range hb']
  rfl

/-- What `GetDatapoints` gives for a batch. -/
theorem Partitioned.getDatapoints (h : Partitioned nThreads part m p) {t b : ℕ} (ht : t < nThreads)
    (hb : b < m) : p.getDatapoints t b = part b t := by
  obtain ⟨rest, hsplit⟩ := flatMap_range_split (part · t) hb
  have hnum : p.numDatapointsInBatch t b = (part b t).length := by
    rw [DatapointPartitions.numDatapointsInBatch, h.numBatches (by omega), if_neg (by omega),
      h.index ht (by omega), h.index ht (by omega), List.range_succ, List.flatMap_append,
      List.length_append]
    simp
  rw [DatapointPartitions.getDatapoints, hnum, h.index ht (by omega), h.points t, hsplit,
    List.drop_left, List.take_left]

theorem DatapointPartitions.getDatapoint_eq (p : DatapointPartitions) {t b i : ℕ}
    (hi : i < p.numDatapointsInBatch t b) : p.getDatapoint t b i = (p.getDatapoints t b)[i]? := by
  rw [DatapointPartitions.getDatapoint, DatapointPartitions.getDatapoints,
    List.getElem?_take_of_lt hi, List.getElem?_drop]

end Access

end Runs

end Cyclades
end Tasvir
