import Mathlib.Tactic

/-! Forests given by a parent function, whose roots are their own parents: what path compression
and linking do to the roots, and the equivalence that a sequence of links builds. -/
namespace UnionForest
variable {α : Type*}

/-- `r` is the root above `a`, the given number of steps away. -/
inductive RootIn (p : α → α) : ℕ → α → α → Prop
  | self {r : α} : p r = r → RootIn p 0 r r
  | up {k : ℕ} {a r : α} : p a ≠ a → RootIn p k (p a) r → RootIn p (k+1) a r

def Root (p : α → α) (a r : α) : Prop := ∃ k, RootIn p k a r

/-- Every node is under some root. -/
def Grounded (p : α → α) : Prop := ∀ a, ∃ r, Root p a r

section Roots
variable {p : α → α} {a r : α}

theorem RootIn.root {k : ℕ} (h : RootIn p k a r) : p r = r := by
  induction h with
  | self h => exact h
  | up _ _ ih => exact ih

theorem RootIn.unique {k m : ℕ} {s : α} (h : RootIn p k a r) (h' : RootIn p m a s) :
    k = m ∧ r = s := by
  induction h generalizing m with
  | self h =>
    cases h' with
    | self => exact ⟨rfl, rfl⟩
    | up hne => exact absurd h hne
  | up hne _ ih =>
    cases h' with
    | self h => exact absurd h hne
    | up _ h' =>
      obtain ⟨rfl, rfl⟩ := ih h'
      exact ⟨rfl, rfl⟩

theorem Root.unique {s : α} (h : Root p a r) (h' : Root p a s) : r = s := by
  obtain ⟨_, h⟩ := h
  obtain ⟨_, h'⟩ := h'
  exact (h.unique h').2

theorem Root.root (h : Root p a r) : p r = r := by
  obtain ⟨_, h⟩ := h
  exact h.root

theorem Root.self (h : p r = r) : Root p r r := ⟨0, .self h⟩

theorem Root.parent (h : Root p a r) : Root p (p a) r := by
  obtain ⟨_, h⟩ := h
  cases h with
  | self h =>
    rw [h]
    exact .self h
  | up _ h => exact ⟨_, h⟩

/-- A node as far below its root as it is not is not on the way. -/
theorem RootIn.ne_of_lt {k m : ℕ} {x s : α} (h : RootIn p k a r) (hx : RootIn p m x s)
    (hkm : k < m) : a ≠ x := by
  rintro rfl
  have := (h.unique hx).1
  omega

/-- The way up stays within a set that parents do not leave, and no node comes twice. -/
theorem RootIn.lt_card [DecidableEq α] {k : ℕ} {s : Finset α} (h : RootIn p k a r) (ha : a ∈ s)
    (hs : ∀ x ∈ s, p x ∈ s) : k < s.card := by
  suffices hk : ∃ t ⊆ s, t.card = k+1 ∧ ∀ x ∈ t, ∃ j ≤ k, RootIn p j x r by
    obtain ⟨t, hts, hcard, -⟩ := hk
    have := Finset.card_le_card hts
    omega
  induction h with
  | @self r h =>
    refine ⟨{r}, Finset.singleton_subset_iff.mpr ha, Finset.card_singleton r, ?_⟩
    intro x hx
    rw [Finset.mem_singleton.mp hx]
    exact ⟨0, le_rfl, .self h⟩
  | @up k a r hne h ih =>
    obtain ⟨t, hts, hcard, ht⟩ := ih (hs a ha)
    have hat : a ∉ t := by
      intro hat
      obtain ⟨j, hj, hroot⟩ := ht a hat
      have := (hroot.unique (.up hne h)).1
      omega
    refine ⟨insert a t, Finset.insert_subset ha hts, ?_, ?_⟩
    · rw [Finset.card_insert_of_notMem hat, hcard]
    · intro x hx
      rcases Finset.mem_insert.mp hx with rfl | hx
      · exact ⟨k+1, le_rfl, .up hne h⟩
      · obtain ⟨j, hj, hroot⟩ := ht x hx
        exact ⟨j, by omega, hroot⟩

end Roots

section Update
variable [DecidableEq α] {p : α → α}

/-- The way from a node nearer to its root does not use the node that is moved. -/
theorem RootIn.move {k m : ℕ} {a r x s t : α} (h : RootIn p k a r) (hx : RootIn p m x s)
    (hkm : k < m) : RootIn (Function.update p x t) k a r := by
  induction h with
  | self h =>
    have hne := (RootIn.self h).ne_of_lt hx hkm
    refine .self ?_
    rwa [Function.update_of_ne hne]
  | @up k a r hne h ih =>
    have hax := (RootIn.up hne h).ne_of_lt hx hkm
    refine .up ?_ ?_
    · rwa [Function.update_of_ne hax]
    · rw [Function.update_of_ne hax]
      exact ih (by omega)

/-- Moving a node to its root keeps the root of every node. -/
theorem Root.compress {x r : α} (hx : Root p x r) (hne : x ≠ r) {a s : α} (h : Root p a s) :
    Root (Function.update p x r) a s := by
  have hmoved : p x ≠ x := by
    intro hpx
    exact hne ((Root.self hpx).unique hx)
  have hr : Function.update p x r r = r := by
    rw [Function.update_of_ne hne.symm]
    exact hx.root
  obtain ⟨k, h⟩ := h
  induction h with
  | @self s h =>
    refine .self ?_
    rw [Function.update_of_ne]
    · exact h
    · rintro rfl
      exact hmoved h
  | @up k a s hpa h ih =>
    by_cases hax : a = x
    · subst hax
      have hs : s = r := Root.unique ⟨_, .up hpa h⟩ hx
      rw [hs]
      refine ⟨1, .up ?_ ?_⟩
      · rw [Function.update_self]
        exact hne.symm
      · rw [Function.update_self]
        exact .self hr
    · obtain ⟨m, ih⟩ := ih
      refine ⟨m+1, .up ?_ ?_⟩
      · rwa [Function.update_of_ne hax]
      · rwa [Function.update_of_ne hax]

/-- Linking one root under another. -/
theorem Root.link {s t : α} (hs : p s = s) (ht : p t = t) {a r : α} (h : Root p a r) :
    Root (Function.update p s t) a (if r = s then t else r) := by
  by_cases hst : s = t
  · subst hst
    have hp : Function.update p s s = p := by
      conv_lhs => rw [← hs]
      rw [hs]
      exact Function.update_eq_self_iff.mpr hs.symm
    rw [hp]
    split
    next hr => rwa [← hr]
    next => exact h
  have ht' : Function.update p s t t = t := by
    rwa [Function.update_of_ne (Ne.symm hst)]
  obtain ⟨k, h⟩ := h
  induction h with
  | @self r h =>
    split
    next hr =>
      rw [hr]
      refine ⟨1, .up ?_ ?_⟩
      · rw [Function.update_self]
        exact Ne.symm hst
      · rw [Function.update_self]
        exact .self ht'
    next hr =>
      refine .self ?_
      rwa [Function.update_of_ne hr]
  | @up k a r hpa h ih =>
    have has : a ≠ s := by
      rintro rfl
      exact hpa hs
    obtain ⟨m, ih⟩ := ih
    refine ⟨m+1, .up ?_ ?_⟩
    · rwa [Function.update_of_ne has]
    · rwa [Function.update_of_ne has]

end Update

section Classes
variable {p : α → α} {E : α → α → Prop}

/-- The nodes with one root are those that the pairs `E` connect. -/
def Represents (p : α → α) (E : α → α → Prop) : Prop :=
  Grounded p ∧ ∀ a b, (∃ r, Root p a r ∧ Root p b r) ↔ Relation.EqvGen E a b

theorem represents_id : Represents (id : α → α) (fun _ _ => False) := by
  refine ⟨fun a => ⟨a, .self rfl⟩, fun a b => ⟨?_, ?_⟩⟩
  · rintro ⟨r, ha, hb⟩
    rw [← ha.unique (.self rfl), ← hb.unique (.self rfl)]
    exact .refl _
  · intro h
    have hab : a = b := by
      induction h with
      | rel _ _ h => exact absurd h not_false
      | refl => rfl
      | symm _ _ _ ih => exact ih.symm
      | trans _ _ _ _ _ ih ih' => exact ih.trans ih'
    exact ⟨a, .self rfl, hab ▸ .self rfl⟩

/-- A forest with the roots of another represents what that one does. -/
theorem Represents.of_roots {p' : α → α} (h : Represents p E)
    (hp : ∀ a r, Root p a r → Root p' a r) : Represents p' E := by
  have hback {a r : α} (ha : Root p' a r) : Root p a r := by
    obtain ⟨s, hs⟩ := h.1 a
    rwa [← (hp a s hs).unique ha]
  refine ⟨fun a => (h.1 a).imp (hp a), fun a b => ?_⟩
  rw [← h.2 a b]
  exact ⟨fun ⟨r, ha, hb⟩ => ⟨r, hback ha, hback hb⟩, fun ⟨r, ha, hb⟩ => ⟨r, hp a r ha, hp b r hb⟩⟩

/-- Linking the roots of two nodes connects the nodes. -/
theorem Represents.link [DecidableEq α] (h : Represents p E) {x y s t : α} (hx : Root p x s)
    (hy : Root p y t) :
    Represents (Function.update p s t) (fun a b => E a b ∨ (a = y ∧ b = x)) := by
  have hroot {a r : α} (ha : Root p a r) := ha.link hx.root hy.root
  have hmono {a b : α} (hab : Relation.EqvGen E a b) :
      Relation.EqvGen (fun a b => E a b ∨ (a = y ∧ b = x)) a b := hab.mono fun _ _ => .inl
  have hyx : Relation.EqvGen (fun a b => E a b ∨ (a = y ∧ b = x)) y x := .rel _ _ (.inr ⟨rfl, rfl⟩)
  refine ⟨fun a => ?_, fun a b => ⟨?_, ?_⟩⟩
  · obtain ⟨r, hr⟩ := h.1 a
    exact ⟨_, hroot hr⟩
  · rintro ⟨r, ha, hb⟩
    obtain ⟨ra, hra⟩ := h.1 a
    obtain ⟨rb, hrb⟩ := h.1 b
    have hsame : (if ra = s then t else ra) = if rb = s then t else rb :=
      ((hroot hra).unique ha).trans ((hroot hrb).unique hb).symm
    have hold {a b r : α} (ha : Root p a r) (hb : Root p b r) := hmono ((h.2 a b).mp ⟨r, ha, hb⟩)
    by_cases has : ra = s
    · by_cases hbs : rb = s
      · exact hold hra (by rwa [has, ← hbs])
      · rw [if_pos has, if_neg hbs] at hsame
        refine .trans _ x _ (hold hra (by rwa [has])) (.trans _ y _ (.symm _ _ hyx) ?_)
        exact hold hy (by rwa [hsame])
    · by_cases hbs : rb = s
      · rw [if_neg has, if_pos hbs] at hsame
        refine .trans _ y _ (hold hra (by rwa [hsame])) (.trans _ x _ hyx ?_)
        exact hold hx (by rwa [← hbs])
      · rw [if_neg has, if_neg hbs] at hsame
        exact hold hra (by rwa [hsame])
  · intro hab
    induction hab with
    | rel a b hab =>
      rcases hab with hab | ⟨rfl, rfl⟩
      · obtain ⟨r, ha, hb⟩ := (h.2 a b).mpr (.rel _ _ hab)
        exact ⟨_, hroot ha, hroot hb⟩
      · refine ⟨t, ?_, ?_⟩
        · have := hroot hy
          split at this <;> exact this
        · have := hroot hx
          rwa [if_pos rfl] at this
    | refl a =>
      obtain ⟨r, hr⟩ := h.1 a
      exact ⟨_, hroot hr, hroot hr⟩
    | symm a b _ ih =>
      obtain ⟨r, ha, hb⟩ := ih
      exact ⟨r, hb, ha⟩
    | trans a b c _ _ ih ih' =>
      obtain ⟨r, ha, hb⟩ := ih
      obtain ⟨r', hb', hc⟩ := ih'
      rw [hb.unique hb'] at ha
      exact ⟨r', ha, hc⟩

end Classes
end UnionForest
