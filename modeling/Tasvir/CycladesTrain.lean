import Mathlib.Tactic
import Tasvir.CycladesPartition
import Tasvir.Interleaving

/-! The trainer of `cyclades`: the workers of a batch copy their part of the model, update it for
their datapoints and copy it back, all at once. Numbers are of any type; no law of arithmetic is
used. -/
namespace Tasvir
open Interleaving LeastFirst

namespace Cyclades

/-- What an update works on: `DataWorker()`, `gradient.coeffs` and `h_bar`. -/
inductive Cell
  | data (x : ℕ)
  | coeff (k : ℕ)
  | hBar (c i : ℕ)
deriving DecidableEq

/-- `&Data(parameter, coordinate)` of a model with `n` numbers for each parameter. -/
def dataCell (n c j : ℕ) : Cell := .data (c*n+j)

/-- The numbers of the coordinates given. -/
def cells (n : ℕ) (cs : List ℕ) : Set ℕ := {x | ∃ c ∈ cs, ∃ j, j < n ∧ x = c*n+j}

/-- A `Model` for `SparseSGDUpdater`: `GetCoordinates` of each datapoint, `NumCoordinates`, and the
stores of `PrecomputeCoefficients` and `H_bar`. -/
structure SparseModel (V : Type*) where
  coords : ℕ → List ℕ
  nCoords : ℕ
  precomputeCoefficients : ℕ → List (Store Cell V)
  hBar : ℕ → ℕ → List (Store Cell V)
  /-- the coefficients of a datapoint -/
  coeffs : ℕ → List ℕ
  precompute_loc : ∀ {d s}, s ∈ precomputeCoefficients d → ∃ k ∈ coeffs d, s.loc = .coeff k
  precompute_reads : ∀ {d s}, s ∈ precomputeCoefficients d →
    s.Reads (Cell.data '' cells nCoords (coords d) ∪ Cell.coeff '' {k | k ∈ coeffs d})
  precompute_decides : ∀ {d k} {m m' : Cell → V},
    (∀ x ∈ cells nCoords (coords d), m (.data x) = m' (.data x)) → k ∈ coeffs d →
    runStores (precomputeCoefficients d) m (.coeff k) =
      runStores (precomputeCoefficients d) m' (.coeff k)
  hBar_loc : ∀ {d c s}, s ∈ hBar d c → ∃ i, s.loc = .hBar c i
  hBar_all : ∀ {d c i}, c ∈ coords d → i < nCoords → ∃ s ∈ hBar d c, s.loc = .hBar c i
  hBar_reads : ∀ {d c s}, c ∈ coords d → s ∈ hBar d c →
    s.Reads (Cell.data '' cells nCoords (coords d) ∪ Cell.coeff '' {k | k ∈ coeffs d})

section CrossProduct
variable {V : Type*} [Zero V] [Add V] [Mul V]

/-- `cp` of `LSModel`. -/
def crossProduct (entries : List (ℕ×V)) (m : Cell → V) : V :=
  entries.foldl (fun s e => s+e.2*m (.data e.1)) 0

theorem crossProduct_congr {entries : List (ℕ×V)} {m m' : Cell → V}
    (hm : ∀ e ∈ entries, m (.data e.1) = m' (.data e.1)) :
    crossProduct entries m = crossProduct entries m' := by
  apply List.foldl_ext
  intro s e he
  rw [hm e he]

end CrossProduct

section Update
variable {V : Type*} [Zero V] [One V] [Add V] [Sub V] [Mul V] [Neg V]

/-- `PrepareH` of `SparseSGDUpdater`. -/
def prepareH (M : SparseModel V) (d : ℕ) : List (Store Cell V) :=
  M.precomputeCoefficients d ++ (M.coords d).flatMap (M.hBar d)

/-- `ApplyGradient`; `Mu` and `Nu` are 0, and `H` is `-h_bar * FLAGS_learning_rate`. -/
def applyGradient (M : SparseModel V) (rate : V) (d : ℕ) : List (Store Cell V) :=
  (M.coords d).flatMap (fun c => (List.range M.nCoords).map (fun j =>
    ⟨dataCell M.nCoords c j, fun m => (1-0)*m (dataCell M.nCoords c j)-0+(-m (.hBar c j))*rate⟩))

/-- `Update`; nothing has to catch up. -/
def update (M : SparseModel V) (rate : V) (d : ℕ) : List (Store Cell V) :=
  prepareH M d ++ applyGradient M rate d

/-- `PrecomputeCoefficients` and `H_bar` of `LSModel`; `entries d` are the coordinates and weights
of datapoint `d`, and `b d` is `B` of its row. -/
def lsModel [OfNat V 2] (entries : ℕ → List (ℕ×V)) (b : ℕ → V) : SparseModel V where
  coords d := (entries d).map Prod.fst
  nCoords := 1
  precomputeCoefficients d := (entries d).map (fun e => ⟨.coeff e.1, fun m =>
    2*(crossProduct (entries d) m-b d)*e.2⟩)
  hBar _ c := [⟨.hBar c 0, fun m => m (.coeff c)⟩]
  coeffs d := (entries d).map Prod.fst
  precompute_loc := by
    intro d s hs
    obtain ⟨e, he, rfl⟩ := List.mem_map.mp hs
    exact ⟨e.1, List.mem_map_of_mem he, rfl⟩
  precompute_reads := by
    intro d s hs m m' hm
    obtain ⟨e, -, rfl⟩ := List.mem_map.mp hs
    simp only
    rw [crossProduct_congr fun e he => hm (.data e.1)
      (.inl ⟨e.1, ⟨e.1, List.mem_map_of_mem he, 0, by simp, by simp⟩, rfl⟩)]
  precompute_decides := by
    intro d k m m' hm hk
    refine runStores_agree (A := Cell.data '' cells 1 ((entries d).map Prod.fst)) ?_ ?_ ?_
    · intro s hs m m' hm
      obtain ⟨e, -, rfl⟩ := List.mem_map.mp hs
      simp only
      rw [crossProduct_congr fun e he => hm (.data e.1)
        ⟨e.1, ⟨e.1, List.mem_map_of_mem he, 0, by simp, by simp⟩, rfl⟩]
    · rintro x ⟨y, hy, rfl⟩
      exact hm y hy
    · obtain ⟨e, he, rfl⟩ := List.mem_map.mp hk
      exact .inr ⟨_, List.mem_map_of_mem he, rfl⟩
  hBar_loc := by
    intro d c s hs
    rw [List.mem_singleton.mp hs]
    exact ⟨0, rfl⟩
  hBar_all := by
    intro d c i _ hi
    have hi0 : i = 0 := by omega
    exact ⟨_, List.mem_cons_self, by rw [hi0]⟩
  hBar_reads := by
    intro d c s hc hs m m' hm
    rw [List.mem_singleton.mp hs]
    exact hm (.coeff c) (.inr ⟨c, hc, rfl⟩)

variable {M : SparseModel V} {rate : V} {d : ℕ}

/-- A worker's memory with the model given. -/
def memory (data : ℕ → V) : Cell → V
  | .data x => data x
  | _ => 0

/-- What `Update` does to the model. -/
def step (M : SparseModel V) (rate : V) (d : ℕ) (data : ℕ → V) (x : ℕ) : V :=
  runStores (update M rate d) (memory data) (.data x)

end Update

/-- The memory of all workers. Worker 0's object is the parent. -/
inductive Place
  | parent (x : ℕ)
  | worker (w : ℕ) (c : Cell)
deriving DecidableEq

def place (w : ℕ) : Cell → Place
  | .data x => if w = 0 then .parent x else .worker w (.data x)
  | .coeff k => .worker w (.coeff k)
  | .hBar c i => .worker w (.hBar c i)

/-- The indices of the ranges. -/
def indices (ranges : List (ℕ×ℕ)) : List ℕ :=
  ranges.flatMap (fun c => (List.range (c.2-c.1)).map (c.1+·))

section Worker
variable {V : Type*} [Zero V] [One V] [Add V] [Sub V] [Mul V] [Neg V]

/-- `CopySelect`. -/
def copySelect (w : ℕ) (ranges : List (ℕ×ℕ)) : List (Store Place V) :=
  (indices ranges).map (fun x => ⟨place w (.data x), fun m => m (.parent x)⟩)

/-- `ReduceSelect`. -/
def reduceSelect (w : ℕ) (ranges : List (ℕ×ℕ)) : List (Store Place V) :=
  (indices ranges).map (fun x => ⟨.parent x, fun m => m (place w (.data x))⟩)

end Worker

section Ranges
variable {coords : ℕ → List ℕ} {n : ℕ}

end Ranges

section WorkerCells
variable {V : Type*} {M : SparseModel V} {p : DatapointPartitions} {w b : ℕ}

end WorkerCells

section Worker
variable {V : Type*} [Zero V] [One V] [Add V] [Sub V] [Mul V] [Neg V]
variable {M : SparseModel V} {rate : V} {p : DatapointPartitions} {w b : ℕ}

end Worker

end Cyclades
end Tasvir
