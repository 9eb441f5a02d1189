import Mathlib.Tactic
import Tasvir.GuardedWalk
import Tasvir.Ownership

/-! `tasvir_kill_thread_ownership`: the daemon takes over the areas of a thread it
declares dead, children before their container. -/
namespace Tasvir
open GuardedWalk

/-- The daemon, the thread it kills, and the node of every thread. -/
structure KillEnv where
  daemon : ℕ
  dead : ℕ
  nodeOf : ℕ → ℕ
  ne : daemon ≠ dead

/-- The areas below the root descriptor; every descriptor has its own place. -/
structure OwnedTree where
  root : Rose ℕ
  nodup : ((root.postorder none).map Prod.snd).Nodup

namespace OwnedTree

def areas (T : OwnedTree) : List (Option ℕ × ℕ) := T.root.postorder none

theorem parent_later (T : OwnedTree) : T.areas.Pairwise fun x y => y.1 ≠ some x.2 :=
  T.root.postorder_parent none T.nodup (fun _ h => absurd h (by simp))

end OwnedTree

namespace KillEnv
variable (K : KillEnv)

def env (pd : Option TransferState) : TransferEnv := ⟨pd.map fun p => p.seen K.daemon, K.nodeOf⟩

/-- The last two statements of `tasvir_kill_thread_ownership` for area `d` in container `pd`.
While `tasvir_update_owner` waits for `d->owner` it runs `tasvir_service`, and `wait` is what
becomes of the areas meanwhile. -/
def killOwnership (wait : (ℕ → TransferState) → ℕ → TransferState) (s : ℕ → TransferState)
    (pd : Option ℕ) (d : ℕ) : ℕ → TransferState :=
  if (s d).seen K.daemon = K.dead then
    let E := K.env (pd.map s)
    let s₁ := Function.update s d ((s d).next E (.call K.daemon K.daemon))
    let s₂ := if (s₁ d).seen K.daemon = K.daemon then s₁ else wait s₁
    Function.update s₂ d ((s₂ d).next E (.ret K.daemon))
  else s

/-- The part of `tasvir_kill_thread` that deals with areas. -/
def killThread (wait : (ℕ → TransferState) → ℕ → TransferState) (T : OwnedTree)
    (s : ℕ → TransferState) : ℕ → TransferState :=
  T.root.postWalk (K.killOwnership wait) none s

def takeOver (a : TransferState) (pd : Option TransferState) : TransferState :=
  if a.seen K.daemon = K.dead then
    (a.next (K.env pd) (.call K.daemon K.daemon)).next (K.env pd) (.ret K.daemon)
  else a

/-- The daemon owns the container of each area of the dead thread. -/
def ParentsOwned (xs : List (Option ℕ × ℕ)) (s : ℕ → TransferState) : Prop :=
  ∀ x ∈ xs, (s x.2).seen K.daemon = K.dead →
    ∃ p, x.1 = some p ∧ (s p).seen K.daemon = K.daemon

/-- Nobody reachable is owned by the dead thread, and what it owned is the daemon's. -/
def Disowned (T : OwnedTree) (s s' : ℕ → TransferState) : Prop :=
  ∀ x ∈ T.areas, (s' x.2).seen K.daemon ≠ K.dead ∧
    ((s x.2).seen K.daemon = K.dead →
      (s' x.2).seen K.daemon = K.daemon ∧ (s' x.2).owner = K.daemon ∧
      (s' x.2).mapped K.daemon = true)

section TakeOver
variable (a : TransferState) (pd : Option TransferState)

theorem takeOver_seen (h : a.seen K.daemon = K.dead) :
    (K.takeOver a pd).seen K.daemon =
      (if ∃ p, pd = some p ∧ p.seen K.daemon = K.daemon then K.daemon else K.dead) ∧
    (K.takeOver a pd).mapped K.daemon = true ∧
    ((∃ p, pd = some p ∧ p.seen K.daemon = K.daemon) → (K.takeOver a pd).owner = K.daemon) := by
  have hne := K.ne
  rw [takeOver, if_pos h]
  cases pd with
  | none => simp [TransferState.next, TransferState.roles, env, h, hne]
  | some p =>
    by_cases hp : p.seen K.daemon = K.daemon
    · simp [TransferState.next, TransferState.roles, env, h, hne, hp]
    · have hp' : K.daemon ≠ p.seen K.daemon := fun h' => hp h'.symm
      simp [TransferState.next, TransferState.roles, env, h, hne, hp, hp']

end TakeOver

theorem killOwnership_eq (wait : (ℕ → TransferState) → ℕ → TransferState) (s : ℕ → TransferState)
    (x : Option ℕ × ℕ) (h : wait = id ∨ K.ParentsOwned [x] s) :
    K.killOwnership wait s x.1 x.2 =
      Function.update s x.2 (K.takeOver (s x.2) (x.1.map s)) := by
  rw [killOwnership, takeOver]
  by_cases ht : (s x.2).seen K.daemon = K.dead
  · rw [if_pos ht, if_pos ht]
    have hwait : (if (Function.update s x.2 ((s x.2).next (K.env (x.1.map s))
        (.call K.daemon K.daemon)) x.2).seen K.daemon = K.daemon then
        Function.update s x.2 ((s x.2).next (K.env (x.1.map s)) (.call K.daemon K.daemon))
        else wait (Function.update s x.2 ((s x.2).next (K.env (x.1.map s))
          (.call K.daemon K.daemon)))) =
        Function.update s x.2 ((s x.2).next (K.env (x.1.map s)) (.call K.daemon K.daemon)) := by
      rcases h with h | h
      · rw [h]
        simp
      · obtain ⟨p, hp, hown⟩ := h x (List.mem_singleton.mpr rfl) ht
        rw [if_pos]
        simp [TransferState.next, TransferState.roles, env, hp, hown]
    dsimp only
    rw [hwait, Function.update_self, Function.update_idem]
  · rw [if_neg ht, if_neg ht, Function.update_eq_self]

theorem foldl_killOwnership (wait : (ℕ → TransferState) → ℕ → TransferState)
    (xs : List (Option ℕ × ℕ)) (hn : (xs.map Prod.snd).Nodup)
    (hpar : xs.Pairwise fun x y => y.1 ≠ some x.2) (s : ℕ → TransferState)
    (h : wait = id ∨ K.ParentsOwned xs s) :
    xs.foldl (fun s x => K.killOwnership wait s x.1 x.2) s =
      xs.foldl (fun s x => Function.update s x.2 (K.takeOver (s x.2) (x.1.map s))) s := by
  induction xs generalizing s with
  | nil => rfl
  | cons x xs ih =>
    rw [List.map_cons, List.nodup_cons] at hn
    rw [List.pairwise_cons] at hpar
    have hx : wait = id ∨ K.ParentsOwned [x] s := by
      refine h.imp_right fun h y hy => ?_
      rw [List.mem_singleton.mp hy]
      exact h x List.mem_cons_self
    rw [List.foldl_cons, List.foldl_cons, K.killOwnership_eq wait s x hx]
    apply ih hn.2 hpar.2
    -- neither the areas to come nor their containers have changed
    refine h.imp_right fun h y hy => ?_
    have hne : y.2 ≠ x.2 := by
      intro h'
      apply hn.1
      rw [← h']
      exact List.mem_map_of_mem hy
    rw [Function.update_of_ne hne]
    intro ht
    obtain ⟨p, hp, hown⟩ := h y (List.mem_cons_of_mem _ hy) ht
    refine ⟨p, hp, ?_⟩
    rwa [Function.update_of_ne]
    intro h'
    apply hpar.1 y hy
    rw [hp, h']

theorem killThread_eq (wait : (ℕ → TransferState) → ℕ → TransferState) (T : OwnedTree)
    (s : ℕ → TransferState) (h : wait = id ∨ K.ParentsOwned T.areas s) :
    ∀ x ∈ T.areas, K.killThread wait T s x.2 = K.takeOver (s x.2) (x.1.map s) := by
  intro x hx
  rw [killThread, Rose.postWalk_eq]
  rw [K.foldl_killOwnership wait _ T.nodup T.parent_later s h]
  exact (foldl_local K.takeOver T.areas T.nodup T.parent_later s).1 x hx

end KillEnv

/-- The kill leaves the dead thread without areas, whatever happens in the waits, exactly
when every area of that thread lies in a container of the daemon. -/
theorem kill_disowns_iff (K : KillEnv) (T : OwnedTree) (s : ℕ → TransferState) :
    (∀ wait, K.Disowned T s (K.killThread wait T s)) ↔ K.ParentsOwned T.areas s := by
  constructor
  · intro h x hx ht
    by_contra hno
    have hx' := (h id x hx).1
    rw [K.killThread_eq id T s (Or.inl rfl) x hx] at hx'
    apply hx'
    rw [(K.takeOver_seen (s x.2) (x.1.map s) ht).1, if_neg]
    rintro ⟨p, hp, hown⟩
    obtain ⟨q, hq, hqp⟩ := Option.map_eq_some_iff.mp hp
    exact hno ⟨q, hq, by rw [hqp]; exact hown⟩
  · intro h wait x hx
    rw [K.killThread_eq wait T s (Or.inr h) x hx]
    by_cases ht : (s x.2).seen K.daemon = K.dead
    · obtain ⟨p, hp, hown⟩ := h x hx ht
      have hpar : ∃ q, x.1.map s = some q ∧ q.seen K.daemon = K.daemon := ⟨s p, by rw [hp]; rfl, hown⟩
      obtain ⟨h1, h2, h3⟩ := K.takeOver_seen (s x.2) (x.1.map s) ht
      rw [if_pos hpar] at h1
      rw [h1]
      exact ⟨K.ne, fun _ => ⟨rfl, h3 hpar, h2⟩⟩
    · have hkeep : K.takeOver (s x.2) (x.1.map s) = s x.2 := if_neg ht
      rw [hkeep]
      exact ⟨ht, fun h' => absurd h' ht⟩

def ownedBy (o : ℕ) : TransferState :=
  ⟨o, fun _ => o, fun t => t = o, fun _ => true, [], fun _ => [], false⟩

/-- The root daemon 0 owns the root area 0; thread 5, which it kills, owns container 1 and
area 2 in it. Nobody else does anything, and area 2 stays with the dead thread. -/
theorem kill_nested_container :
    ¬(∀ (K : KillEnv) (T : OwnedTree) (s : ℕ → TransferState) wait,
      K.Disowned T s (K.killThread wait T s)) ∧
    let K : KillEnv := ⟨0, 5, fun _ => 0, by decide⟩
    let T : OwnedTree := ⟨.node 0 [.node 1 [.node 2 []]], by decide⟩
    let s : ℕ → TransferState := fun i => ownedBy (if i = 0 then 0 else 5)
    (K.killThread id T s 1).seen 0 = 0 ∧ (K.killThread id T s 2).seen 0 = 5 := by
  have hrun : let K : KillEnv := ⟨0, 5, fun _ => 0, by decide⟩
      let T : OwnedTree := ⟨.node 0 [.node 1 [.node 2 []]], by decide⟩
      let s : ℕ → TransferState := fun i => ownedBy (if i = 0 then 0 else 5)
      (K.killThread id T s 1).seen 0 = 0 ∧ (K.killThread id T s 2).seen 0 = 5 := by
    decide
  refine ⟨?_, hrun⟩
  intro h
  exact (h ⟨0, 5, fun _ => 0, by decide⟩ ⟨.node 0 [.node 1 [.node 2 []]], by decide⟩
    (fun i => ownedBy (if i = 0 then 0 else 5)) id (some 1, 2) (by decide)).1 hrun.2

end Tasvir
