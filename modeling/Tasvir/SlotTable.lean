import Mathlib.Tactic

/-! Tables of slots: a position holds a thing or nothing, and things are moved between
positions. A table is placed when every thing is where it may be and nowhere else. -/
namespace SlotTable
variable {P E : Type*}

/-- Copy the slot at `p` to `q`, then empty `p`. -/
def moveSlot [DecidableEq P] (t : P → Option E) (p q : P) : P → Option E :=
  Function.update (Function.update t q (t p)) p none

structure Placed (ok : E → P → Prop) (t : P → Option E) : Prop where
  ok : ∀ {p e}, t p = some e → ok e p
  inj : ∀ {p q e}, t p = some e → t q = some e → p = q

/-- The same things, wherever they are. -/
def SameContents (t t' : P → Option E) : Prop := ∀ e, (∃ p, t' p = some e) ↔ ∃ p, t p = some e

theorem SameContents.refl (t : P → Option E) : SameContents t t := fun _ => Iff.rfl

theorem SameContents.trans {t t' t'' : P → Option E} (h : SameContents t t')
    (h' : SameContents t' t'') : SameContents t t'' := fun e => (h' e).trans (h e)

variable [DecidableEq P]

@[simp] theorem moveSlot_source (t : P → Option E) (p q : P) : moveSlot t p q p = none := by
  simp [moveSlot]

theorem moveSlot_target (t : P → Option E) {p q : P} (h : q ≠ p) : moveSlot t p q q = t p := by
  simp [moveSlot, h]

theorem moveSlot_other (t : P → Option E) {p q r : P} (hp : r ≠ p) (hq : r ≠ q) :
    moveSlot t p q r = t r := by
  simp [moveSlot, hp, hq]

/-- Moving an empty slot onto itself, or onto an empty slot, does nothing. -/
theorem moveSlot_empty {t : P → Option E} {p q : P} (hp : t p = none) (hq : t q = none) :
    moveSlot t p q = t := by
  funext r
  by_cases hrp : r = p
  · rw [hrp, moveSlot_source, hp]
  · by_cases hrq : r = q
    · rw [hrq] at hrp ⊢
      rw [moveSlot_target t hrp, hp, hq]
    · exact moveSlot_other t hrp hrq

/-- What is in a slot after a move onto an empty slot was in the same slot before, or it is
the thing that was moved. -/
theorem moveSlot_some {t : P → Option E} {p q : P} (hq : t q = none) {r : P} {e : E} :
    moveSlot t p q r = some e ↔ (r ≠ p ∧ t r = some e) ∨ (r = q ∧ p ≠ q ∧ t p = some e) := by
  by_cases hrp : r = p
  · subst hrp
    rw [moveSlot_source]
    constructor
    · intro h
      cases h
    · rintro (⟨h, -⟩ | ⟨h, h', -⟩)
      · exact absurd rfl h
      · exact absurd h h'
  · by_cases hrq : r = q
    · subst hrq
      rw [moveSlot_target t hrp]
      constructor
      · intro h
        exact .inr ⟨rfl, Ne.symm hrp, h⟩
      · rintro (⟨-, h⟩ | ⟨-, -, h⟩)
        · rw [hq] at h
          cases h
        · exact h
    · rw [moveSlot_other t hrp hrq]
      constructor
      · intro h
        exact .inl ⟨hrp, h⟩
      · rintro (⟨-, h⟩ | ⟨h, -⟩)
        · exact h
        · exact absurd h hrq

variable {ok : E → P → Prop} {t : P → Option E}

/-- A move onto an empty slot where the thing may be. -/
theorem Placed.moveSlot (h : Placed ok t) {p q : P} (hq : t q = none)
    (hok : ∀ e, t p = some e → ok e q) : Placed ok (moveSlot t p q) := by
  constructor
  · intro r e hr
    rcases (moveSlot_some hq).mp hr with ⟨-, hr⟩ | ⟨rfl, -, hp⟩
    · exact h.ok hr
    · exact hok e hp
  · intro r s e hr hs
    rcases (moveSlot_some hq).mp hr with ⟨hrp, hr⟩ | ⟨hrq, -, hr⟩ <;>
      rcases (moveSlot_some hq).mp hs with ⟨hsp, hs⟩ | ⟨hsq, -, hs⟩
    · exact h.inj hr hs
    · exact absurd (h.inj hr hs) hrp
    · exact absurd (h.inj hs hr) hsp
    · rw [hrq, hsq]

theorem sameContents_moveSlot {p q : P} (hq : t q = none) :
    SameContents t (SlotTable.moveSlot t p q) := by
  intro e
  constructor
  · rintro ⟨r, hr⟩
    rcases (moveSlot_some hq).mp hr with ⟨-, hr⟩ | ⟨-, -, hp⟩
    · exact ⟨r, hr⟩
    · exact ⟨p, hp⟩
  · rintro ⟨r, hr⟩
    by_cases hrp : r = p
    · subst hrp
      refine ⟨q, (moveSlot_some hq).mpr (.inr ⟨rfl, ?_, hr⟩)⟩
      intro hrq
      rw [hrq, hq] at hr
      cases hr
    · exact ⟨r, (moveSlot_some hq).mpr (.inl ⟨hrp, hr⟩)⟩

section Weight
variable (S : Finset P) (w : E → P → ℕ)

/-- The weight of a table over the positions of `S`. -/
def weight (t : P → Option E) : ℕ := ∑ p ∈ S, (t p).elim 0 (fun e => w e p)

variable {S w}

/-- Writing one slot takes away the weight of what was there and adds that of the new. -/
theorem weight_update {q : P} (hq : q ∈ S) (v : Option E) :
    weight S w (Function.update t q v) + (t q).elim 0 (fun e => w e q) =
      weight S w t + v.elim 0 (fun e => w e q) := by
  unfold weight
  rw [← Finset.add_sum_erase S _ hq, ← Finset.add_sum_erase S (fun r => (t r).elim 0 _) hq]
  have hrest : ∑ r ∈ S.erase q, (Function.update t q v r).elim 0 (fun e => w e r) =
      ∑ r ∈ S.erase q, (t r).elim 0 (fun e => w e r) := by
    apply Finset.sum_congr rfl
    intro r hr
    rw [Function.update_of_ne (Finset.ne_of_mem_erase hr)]
  rw [hrest, Function.update_self]
  omega

/-- A move takes away the weight at the old position and adds the one at the new. -/
theorem weight_moveSlot {p q : P} {e : E} (hp : t p = some e) (hq : t q = none) (hpS : p ∈ S)
    (hqS : q ∈ S) :
    weight S w (SlotTable.moveSlot t p q) + w e p = weight S w t + w e q := by
  have hpq : p ≠ q := by
    rintro rfl
    rw [hp] at hq
    cases hq
  have hfirst := weight_update (t := t) (w := w) hqS (t p)
  have hsecond := weight_update (t := Function.update t q (t p)) (w := w) hpS none
  rw [Function.update_of_ne hpq, hp] at hsecond
  rw [hq, hp] at hfirst
  simp only [Option.elim] at hfirst hsecond
  rw [SlotTable.moveSlot, hp]
  omega

end Weight
end SlotTable
