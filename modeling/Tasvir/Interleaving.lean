import Mathlib.Tactic
import Mathlib.Order.CompletePartialOrder

/-! Programs that run at once over one memory, each within a part of its own: every interleaving
leaves in each part what the program of that part leaves there alone. -/
namespace Interleaving
variable {ι L V : Type*}

/-- `f` stays in `F`: it changes nothing outside, and what it leaves there depends on nothing
outside. -/
structure Local (F : Set L) (f : (L → V) → L → V) : Prop where
  outside : ∀ m x, x ∉ F → f m x = m x
  inside : ∀ {m m' : L → V}, (∀ x ∈ F, m x = m' x) → ∀ x ∈ F, f m x = f m' x

/-- The operations one after the other. -/
def run (l : List ((L → V) → L → V)) (m : L → V) : L → V := l.foldl (fun m f => f m) m

@[simp] theorem run_nil (m : L → V) : run [] m = m := rfl

theorem Local.mono {F G : Set L} {f : (L → V) → L → V} (h : Local F f) (hFG : F ⊆ G) :
    Local G f := by
  constructor
  · intro m x hx
    exact h.outside m x fun hF => hx (hFG hF)
  · intro m m' hm x hx
    by_cases hF : x ∈ F
    · exact h.inside (fun y hy => hm y (hFG hy)) x hF
    · rw [h.outside m x hF, h.outside m' x hF]
      exact hm x hx

section Orders
variable {δ : Type*} {F : δ → Set L} {f : δ → (L → V) → L → V}

end Orders

section Programs
variable [DecidableEq ι] {β : Type*}

end Programs

section Stores
/-- A store to `loc` of what `val` reads from the memory. -/
structure Store (L V : Type*) where
  loc : L
  val : (L → V) → V

/-- The store reads in `A` only. -/
def Store.Reads (A : Set L) (s : Store L V) : Prop :=
  ∀ ⦃m m' : L → V⦄, (∀ x ∈ A, m x = m' x) → s.val m = s.val m'

theorem Store.Reads.mono {A B : Set L} {s : Store L V} (h : s.Reads A) (hAB : A ⊆ B) : s.Reads B :=
  fun _ _ hm => h fun x hx => hm x (hAB hx)

variable [DecidableEq L]

def Store.apply (s : Store L V) (m : L → V) : L → V := Function.update m s.loc (s.val m)

def runStores (l : List (Store L V)) (m : L → V) : L → V := run (l.map Store.apply) m

@[simp] theorem runStores_nil (m : L → V) : runStores [] m = m := rfl

/-- What the stores write is decided by where they read. -/
theorem runStores_agree {A : Set L} {l : List (Store L V)} (hl : ∀ s ∈ l, s.Reads A) {m m' : L → V}
    (hm : ∀ x ∈ A, m x = m' x) {x : L} (hx : x ∈ A ∨ ∃ s ∈ l, s.loc = x) :
    runStores l m x = runStores l m' x := by
  have hrun : ∀ {l : List (Store L V)} {B : Set L} {m m' : L → V}, (∀ s ∈ l, s.Reads A) → A ⊆ B →
      (∀ x ∈ B, m x = m' x) → ∀ x, (x ∈ B ∨ ∃ s ∈ l, s.loc = x) →
      runStores l m x = runStores l m' x := by
    intro l
    induction l with
    | nil =>
      intro B m m' _ _ hm x hx
      rcases hx with hx | ⟨s, hs, -⟩
      · exact hm x hx
      · exact absurd hs List.not_mem_nil
    | cons s l ih =>
      intro B m m' hl hAB hm x hx
      have hval := hl s List.mem_cons_self fun x hx => hm x (hAB hx)
      refine ih (B := insert s.loc B) (fun t ht => hl t (List.mem_cons_of_mem s ht))
        (hAB.trans (Set.subset_insert _ _)) ?_ x ?_
      · intro y hy
        simp only [Store.apply, hval]
        by_cases hys : y = s.loc
        · rw [hys, Function.update_self, Function.update_self]
        · rw [Function.update_of_ne hys, Function.update_of_ne hys]
          exact hm y (hy.resolve_left hys)
      · rcases hx with hx | ⟨t, ht, rfl⟩
        · exact .inl (.inr hx)
        · rcases List.mem_cons.mp ht with rfl | ht
          · exact .inl (.inl rfl)
          · exact .inr ⟨t, ht, rfl⟩
  exact hrun hl subset_rfl hm x hx

variable {K : Type*} [DecidableEq K]

/-- The store at another place in memory. -/
def Store.place (e : L → K) (s : Store L V) : Store K V := ⟨e s.loc, fun m => s.val (m ∘ e)⟩

end Stores
end Interleaving
