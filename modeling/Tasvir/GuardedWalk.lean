import Mathlib.Tactic

/-! Walks of a tree: in preorder, without entering a subtree whose label is refused, and in
postorder, where a label is visited together with that of its parent. -/
namespace GuardedWalk

inductive Rose (α : Type*)
  | node (a : α) (children : List (Rose α))

variable {α σ : Type*}

mutual

/-- The labels a walk reaches, in order. -/
def Rose.visited (p : α → Bool) : Rose α → List α
  | .node a cs => if p a then a :: visitedAll p cs else []

def visitedAll (p : α → Bool) : List (Rose α) → List α
  | [] => []
  | t :: ts => t.visited p ++ visitedAll p ts

end

mutual

/-- Call `f` on the label, then walk the children; the returned numbers add up. -/
def Rose.walk (p : α → Bool) (f : σ → α → σ × ℕ) : Rose α → σ → σ × ℕ
  | .node a cs, s =>
    if p a then
      let r := f s a
      let q := walkAll p f cs r.1
      (q.1, r.2+q.2)
    else (s, 0)

def walkAll (p : α → Bool) (f : σ → α → σ × ℕ) : List (Rose α) → σ → σ × ℕ
  | [], s => (s, 0)
  | t :: ts, s =>
    let r := t.walk p f s
    let q := walkAll p f ts r.1
    (q.1, r.2+q.2)

end

mutual

/-- A walk is a loop over the labels it reaches. -/
theorem Rose.walk_state (p : α → Bool) (f : σ → α → σ × ℕ) :
    ∀ (t : Rose α) (s : σ), (t.walk p f s).1 = (t.visited p).foldl (fun s a => (f s a).1) s
  | .node a cs, s => by
    rw [Rose.walk, Rose.visited]
    split_ifs
    · exact walkAll_state p f cs (f s a).1
    · rfl

theorem walkAll_state (p : α → Bool) (f : σ → α → σ × ℕ) :
    ∀ (ts : List (Rose α)) (s : σ),
      (walkAll p f ts s).1 = (visitedAll p ts).foldl (fun s a => (f s a).1) s
  | [], s => rfl
  | t :: ts, s => by
    rw [walkAll, visitedAll, List.foldl_append, ← Rose.walk_state p f t s]
    exact walkAll_state p f ts (t.walk p f s).1

end

mutual

/-- A walk that refuses less reaches at least the same labels, and refuses none it reaches. -/
theorem Rose.visited_mono {p q : α → Bool} (h : ∀ a, p a = true → q a = true) :
    ∀ t : Rose α, ∀ a ∈ t.visited p, a ∈ t.visited q ∧ p a = true
  | .node a cs => by
    intro b hb
    rw [Rose.visited] at hb ⊢
    split_ifs at hb with ha
    · rw [if_pos (h a ha)]
      rcases List.mem_cons.mp hb with hb | hb
      · rw [hb]
        exact ⟨List.mem_cons_self, ha⟩
      · obtain ⟨h1, h2⟩ := visitedAll_mono h cs b hb
        exact ⟨List.mem_cons_of_mem _ h1, h2⟩
    · exact absurd hb List.not_mem_nil

theorem visitedAll_mono {p q : α → Bool} (h : ∀ a, p a = true → q a = true) :
    ∀ ts : List (Rose α), ∀ a ∈ visitedAll p ts, a ∈ visitedAll q ts ∧ p a = true
  | [] => by
    intro b hb
    exact absurd hb List.not_mem_nil
  | t :: ts => by
    intro b hb
    rw [visitedAll] at hb ⊢
    rcases List.mem_append.mp hb with hb | hb
    · obtain ⟨h1, h2⟩ := Rose.visited_mono h t b hb
      exact ⟨List.mem_append_left _ h1, h2⟩
    · obtain ⟨h1, h2⟩ := visitedAll_mono h ts b hb
      exact ⟨List.mem_append_right _ h1, h2⟩

end

mutual

/-- Walk the children, then call `f` on the label; `pd` is the label of the parent. -/
def Rose.postWalk (f : σ → Option α → α → σ) : Option α → Rose α → σ → σ
  | pd, .node a cs, s => f (postWalkAll f a cs s) pd a

def postWalkAll (f : σ → Option α → α → σ) (a : α) : List (Rose α) → σ → σ
  | [], s => s
  | t :: ts, s => postWalkAll f a ts (t.postWalk f (some a) s)

end

mutual

/-- The labels in postorder, each behind that of its parent. -/
def Rose.postorder : Option α → Rose α → List (Option α × α)
  | pd, .node a cs => postorderAll a cs ++ [(pd, a)]

def postorderAll (a : α) : List (Rose α) → List (Option α × α)
  | [] => []
  | t :: ts => t.postorder (some a) ++ postorderAll a ts

end

mutual

/-- A walk is a loop over the labels. -/
theorem Rose.postWalk_eq (f : σ → Option α → α → σ) :
    ∀ (pd : Option α) (t : Rose α) (s : σ),
      t.postWalk f pd s = (t.postorder pd).foldl (fun s x => f s x.1 x.2) s
  | pd, .node a cs, s => by
    rw [Rose.postWalk, Rose.postorder, List.foldl_append, ← postWalkAll_eq f a cs s]
    rfl

theorem postWalkAll_eq (f : σ → Option α → α → σ) :
    ∀ (a : α) (ts : List (Rose α)) (s : σ),
      postWalkAll f a ts s = (postorderAll a ts).foldl (fun s x => f s x.1 x.2) s
  | a, [], s => rfl
  | a, t :: ts, s => by
    rw [postWalkAll, postorderAll, List.foldl_append, ← Rose.postWalk_eq f (some a) t s]
    exact postWalkAll_eq f a ts _

end

mutual

/-- A parent that is named is the given one or a label of the tree. -/
theorem Rose.parent_mem :
    ∀ (pd : Option α) (t : Rose α), ∀ x ∈ t.postorder pd,
      x.1 = pd ∨ ∃ p ∈ (t.postorder pd).map Prod.snd, x.1 = some p
  | pd, .node a cs => by
    intro x hx
    rw [Rose.postorder] at hx ⊢
    rcases List.mem_append.mp hx with hx | hx
    · refine Or.inr ?_
      rcases parent_mem_all a cs x hx with h | ⟨p, hp, h⟩
      · exact ⟨a, by simp, h⟩
      · exact ⟨p, by rw [List.map_append]; exact List.mem_append_left _ hp, h⟩
    · rw [List.mem_singleton.mp hx]
      exact Or.inl rfl

theorem parent_mem_all :
    ∀ (a : α) (ts : List (Rose α)), ∀ x ∈ postorderAll a ts,
      x.1 = some a ∨ ∃ p ∈ (postorderAll a ts).map Prod.snd, x.1 = some p
  | a, [] => by
    intro x hx
    exact absurd hx List.not_mem_nil
  | a, t :: ts => by
    intro x hx
    rw [postorderAll] at hx ⊢
    rw [List.map_append]
    rcases List.mem_append.mp hx with hx | hx
    · rcases Rose.parent_mem (some a) t x hx with h | ⟨p, hp, h⟩
      · exact Or.inl h
      · exact Or.inr ⟨p, List.mem_append_left _ hp, h⟩
    · rcases parent_mem_all a ts x hx with h | ⟨p, hp, h⟩
      · exact Or.inl h
      · exact Or.inr ⟨p, List.mem_append_right _ hp, h⟩

end

mutual

/-- In postorder no label comes before one whose parent it is. -/
theorem Rose.postorder_parent :
    ∀ (pd : Option α) (t : Rose α), ((t.postorder pd).map Prod.snd).Nodup →
      (∀ p, pd = some p → p ∉ (t.postorder pd).map Prod.snd) →
      (t.postorder pd).Pairwise fun x y => y.1 ≠ some x.2
  | pd, .node a cs => by
    intro hn hpd
    rw [Rose.postorder, List.map_append, List.nodup_append] at hn
    rw [Rose.postorder] at hpd ⊢
    have ha : a ∉ (postorderAll a cs).map Prod.snd := by
      intro h
      exact hn.2.2 a h a (by simp) rfl
    apply List.pairwise_append.mpr
    refine ⟨postorderAll_parent a cs hn.1 ha, List.pairwise_singleton _ _, ?_⟩
    intro x hx y hy
    rw [List.mem_singleton.mp hy]
    intro h
    apply hpd x.2 h
    rw [List.map_append]
    exact List.mem_append_left _ (List.mem_map_of_mem hx)

theorem postorderAll_parent :
    ∀ (a : α) (ts : List (Rose α)), ((postorderAll a ts).map Prod.snd).Nodup →
      a ∉ (postorderAll a ts).map Prod.snd →
      (postorderAll a ts).Pairwise fun x y => y.1 ≠ some x.2
  | a, [] => fun _ _ => List.Pairwise.nil
  | a, t :: ts => by
    intro hn ha
    rw [postorderAll, List.map_append] at hn ha
    rw [List.nodup_append] at hn
    rw [List.mem_append, not_or] at ha
    rw [postorderAll]
    apply List.pairwise_append.mpr
    refine ⟨Rose.postorder_parent (some a) t hn.1 ?_, postorderAll_parent a ts hn.2.1 ha.2, ?_⟩
    · intro p hp
      rw [← Option.some.inj hp]
      exact ha.1
    · intro x hx y hy h
      have hx' := List.mem_map_of_mem (f := Prod.snd) hx
      rcases parent_mem_all a ts y hy with h' | ⟨p, hp, h'⟩
      · rw [h'] at h
        rw [← Option.some.inj h] at hx'
        exact ha.1 hx'
      · rw [h'] at h
        rw [Option.some.inj h] at hp
        exact hn.2.2 x.2 hx' x.2 hp rfl

end

/-- A loop whose pass on a label changes its value only, from the values of the label and its
parent, gives each label what the values before the loop say. -/
theorem foldl_local {β : Type*} [DecidableEq α] (g : β → Option β → β)
    (xs : List (Option α × α)) (hn : (xs.map Prod.snd).Nodup)
    (hpar : xs.Pairwise fun x y => y.1 ≠ some x.2) (s : α → β) :
    (∀ x ∈ xs, xs.foldl (fun s x => Function.update s x.2 (g (s x.2) (x.1.map s))) s x.2 =
      g (s x.2) (x.1.map s)) ∧
    ∀ i, i ∉ xs.map Prod.snd →
      xs.foldl (fun s x => Function.update s x.2 (g (s x.2) (x.1.map s))) s i = s i := by
  induction xs generalizing s with
  | nil => exact ⟨fun x hx => absurd hx List.not_mem_nil, fun _ _ => rfl⟩
  | cons x xs ih =>
    rw [List.map_cons, List.nodup_cons] at hn
    rw [List.pairwise_cons] at hpar
    obtain ⟨h1, h2⟩ := ih hn.2 hpar.2 (Function.update s x.2 (g (s x.2) (x.1.map s)))
    constructor
    · intro y hy
      rcases List.mem_cons.mp hy with hy | hy
      · rw [hy, List.foldl_cons, h2 _ hn.1, Function.update_self]
      · have hne : y.2 ≠ x.2 := by
          intro h
          apply hn.1
          rw [← h]
          exact List.mem_map_of_mem hy
        rw [List.foldl_cons, h1 y hy, Function.update_of_ne hne]
        congr 1
        -- the parent of y has not been visited
        cases hp : y.1 with
        | none => rfl
        | some p =>
          have hpx : p ≠ x.2 := by
            intro h
            apply hpar.1 y hy
            rw [hp, h]
          rw [Option.map_some, Option.map_some, Function.update_of_ne hpx]
    · intro i hi
      rw [List.map_cons, List.mem_cons, not_or] at hi
      rw [List.foldl_cons, h2 i hi.2, Function.update_of_ne hi.1]

end GuardedWalk
