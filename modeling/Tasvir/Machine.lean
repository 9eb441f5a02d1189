import Mathlib.Tactic

/-! Guarded transition systems: a step is an action whose precondition holds,
and its effect is a function of state and action. -/
namespace Machine

structure System (σ α : Type*) where
  init : σ → Prop
  pre : σ → α → Prop
  next : σ → α → σ

namespace System
variable {σ α : Type*} (S : System σ α)

/-- The states of all runs. -/
inductive Reachable : σ → Prop
  | init {s : σ} : S.init s → Reachable s
  | step {s : σ} {a : α} : Reachable s → S.pre s a → Reachable (S.next s a)

/-- The same system with a further condition on every step. -/
def restrict (ok : σ → α → Prop) : System σ α :=
  { S with pre := fun s a => S.pre s a ∧ ok s a }

/-- All actions of the list are enabled one after the other. -/
def Enabled : σ → List α → Prop
  | _, [] => True
  | s, a :: as => S.pre s a ∧ Enabled (S.next s a) as

instance decidableEnabled [∀ s a, Decidable (S.pre s a)] :
    ∀ (s : σ) (as : List α), Decidable (S.Enabled s as)
  | _, [] => inferInstanceAs (Decidable True)
  | s, a :: as =>
    haveI := decidableEnabled (S.next s a) as
    inferInstanceAs (Decidable (_ ∧ _))

def run (s : σ) (as : List α) : σ := as.foldl S.next s

variable {S}

/-- The invariant rule. -/
theorem Reachable.invariant {P : σ → Prop} {s : σ} (h : S.Reachable s)
    (hinit : ∀ s, S.init s → P s) (hstep : ∀ s a, P s → S.pre s a → P (S.next s a)) : P s := by
  induction h with
  | init h => exact hinit _ h
  | step _ hp ih => exact hstep _ _ ih hp

theorem Reachable.of_restrict {ok : σ → α → Prop} {s : σ} (h : (S.restrict ok).Reachable s) :
    S.Reachable s := by
  induction h with
  | init h => exact .init h
  | step _ hp ih => exact ih.step hp.1

theorem Reachable.run {s : σ} (h : S.Reachable s) (as : List α) (he : S.Enabled s as) :
    S.Reachable (S.run s as) := by
  induction as generalizing s with
  | nil => exact h
  | cons a as ih => exact ih (h.step he.1) he.2

theorem enabled_append {s : σ} {as bs : List α} (has : S.Enabled s as)
    (hbs : S.Enabled (S.run s as) bs) : S.Enabled s (as ++ bs) := by
  induction as generalizing s with
  | nil => exact hbs
  | cons a as ih => exact ⟨has.1, ih has.2 hbs⟩

end System
end Machine
