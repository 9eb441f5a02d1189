import Mathlib.Tactic
import Tasvir.CuckooMap
import Tasvir.Machine

/-! The bucket locks of the shared cuckoo map: `SpinLock`, `SpinLockLazy` and `SpinUnlock` over
`shm_spin_lock`, by any number of processes. -/
namespace Tasvir
open Machine CuckooMap

/-- Who waits, waits for something above all that it holds: then the chain of holders ends with
someone who does not wait. -/
theorem exists_not_waiting {P : Type*} (holds waits : P → ℕ → Prop) (bound : ℕ)
    (hbound : ∀ {p l}, waits p l → l < bound) (habove : ∀ {p l l'}, waits p l → holds p l' → l' < l)
    (hheld : ∀ {p l}, waits p l → ∃ q, holds q l) {p : P} {l : ℕ} (hp : holds p l) :
    ∃ q l', holds q l' ∧ ∀ l'', ¬waits q l'' := by
  induction hk : bound-l using Nat.strong_induction_on generalizing p l with
  | _ k ih =>
    by_cases hw : ∃ l', waits p l'
    · obtain ⟨l', hw⟩ := hw
      obtain ⟨q, hq⟩ := hheld hw
      have hlt := habove hw hp
      have hlb := hbound hw
      exact ih (bound-l') (by omega) hq rfl
    · exact ⟨p, l, hp, not_exists.mp hw⟩

/-- What `shm_spin_trylock` returns for the word that it found: `EBUSY` or `EINVAL` when it failed. -/
def shmSpinTrylock (word : ℕ) : ℕ := if word = 0 then 0 else if word = 1 then 16 else 22

/-- Where a process is. -/
inductive LockPc (K : Type)
  | idle
  /-- at `__sync_lock_test_and_set` of the first lock in `todo` -/
  | acquiring (key : K) (held todo : List ℕ)
  /-- in `while (*lock == 1)` -/
  | spinning (key : K) (held todo : List ℕ)
  /-- in `SpinLockLazy`: at the first `shm_spin_trylock`, the second, and the unlock behind it -/
  | tryFirst (key : K)
  | trySecond (key : K)
  | undo (key : K)
  | inside (key : K)
  | releasing (todo : List ℕ)

structure LockState (P K : Type) where
  lock : ℕ → ℕ
  pc : P → LockPc K

inductive LockAct (P K : Type)
  | spinLock (p : P) (key : K)
  | spinLockLazy (p : P) (key : K)
  /-- the next instruction of `p` -/
  | step (p : P)
  | spinUnlock (p : P)

namespace SpinLocks
variable {P K : Type} (hasher : K → BitVec 64) (mask : HashResult)

/-- `a` and `b` of the three functions. -/
def lockIndices (key : K) : ℕ×ℕ :=
  ((hashPrimary hasher key &&& mask).toNat, (hashSecondary (hashPrimary hasher key) &&& mask).toNat)

/-- The locks in the order in which `SpinLock` takes them; `SpinUnlock` goes the other way. -/
def lockOrder (key : K) : List ℕ :=
  let (a, b) := lockIndices hasher mask key
  if a < b then [a, b] else if a > b then [b, a] else [a]

/-- One instruction: the locks behind it, and where the process is. -/
def instr (lock : ℕ → ℕ) : LockPc K → (ℕ → ℕ)×LockPc K
  | .acquiring key held (l :: todo) =>
    (Function.update lock l 1,
      if lock l = 0 then
        if todo = [] then .inside key else .acquiring key (held ++ [l]) todo
      else .spinning key held (l :: todo))
  | .spinning key held (l :: todo) =>
    (lock, if lock l = 1 then .spinning key held (l :: todo) else .acquiring key held (l :: todo))
  | .tryFirst key =>
    let l := (lockOrder hasher mask key).getD 0 0
    (Function.update lock l 1, if shmSpinTrylock (lock l) ≠ 0 then .trySecond key else .tryFirst key)
  | .trySecond key =>
    let l := (lockOrder hasher mask key).getD 1 0
    (Function.update lock l 1, if shmSpinTrylock (lock l) ≠ 0 then .inside key else .undo key)
  | .undo key => (Function.update lock ((lockOrder hasher mask key).getD 0 0) 0, .tryFirst key)
  | .releasing (l :: todo) =>
    (Function.update lock l 0, if todo = [] then .idle else .releasing todo)
  | pc => (lock, pc)

section Steps
variable [DecidableEq P]

def lockPre (s : LockState P K) : LockAct P K → Prop
  | .spinLock p _ => s.pc p = .idle
  | .spinLockLazy p _ => s.pc p = .idle
  | .step _ => True
  | .spinUnlock p => ∃ key, s.pc p = .inside key

def goto (s : LockState P K) (p : P) (pc : LockPc K) : LockState P K :=
  { s with pc := Function.update s.pc p pc }

def lockNext (s : LockState P K) : LockAct P K → LockState P K
  | .spinLock p key => goto s p (.acquiring key [] (lockOrder hasher mask key))
  | .spinLockLazy p key =>
    -- one bucket only: `shm_spin_lock`
    if (lockOrder hasher mask key).length = 1 then
      goto s p (.acquiring key [] (lockOrder hasher mask key))
    else goto s p (.tryFirst key)
  | .step p =>
    let (lock, pc) := instr hasher mask s.lock (s.pc p)
    goto { s with lock := lock } p pc
  | .spinUnlock p =>
    match s.pc p with
    | .inside key => goto s p (.releasing (lockOrder hasher mask key).reverse)
    | _ => s

/-- All processes with all keys. -/
def lockSystem : System (LockState P K) (LockAct P K) where
  init s := (∀ l, s.lock l = 0) ∧ ∀ p, s.pc p = .idle
  pre := lockPre
  next := lockNext hasher mask

/-- Nobody uses `SpinLockLazy`. -/
def strictSystem : System (LockState P K) (LockAct P K) :=
  (lockSystem hasher mask).restrict (fun _ a => ∀ p key, a ≠ .spinLockLazy p key)

end Steps

/-- The locks that a process has taken and not yet released. -/
def held : LockPc K → List ℕ
  | .acquiring _ h _ => h
  | .spinning _ h _ => h
  | .inside key => lockOrder hasher mask key
  | .releasing todo => todo
  | _ => []

/-- What holds of a process that uses `SpinLock`. -/
def Shape : LockPc K → Prop
  | .idle => True
  | .acquiring key h todo => h ++ todo = lockOrder hasher mask key ∧ todo ≠ []
  | .spinning key h todo => h ++ todo = lockOrder hasher mask key ∧ todo ≠ []
  | .inside _ => True
  | .releasing todo => todo.Nodup ∧ todo ≠ []
  | _ => False

structure StrictInv (s : LockState P K) : Prop where
  word : ∀ l, s.lock l = 0 ∨ s.lock l = 1
  set : ∀ l, s.lock l = 1 ↔ ∃ p, l ∈ held hasher mask (s.pc p)
  unique : ∀ {l p q}, l ∈ held hasher mask (s.pc p) → l ∈ held hasher mask (s.pc q) → p = q
  shape : ∀ p, Shape hasher mask (s.pc p)

variable {hasher mask} {s : LockState P K} {p q : P} {key : K}

theorem lockOrder_pairwise (hasher : K → BitVec 64) (mask : HashResult) (key : K) :
    (lockOrder hasher mask key).Pairwise (· < ·) := by
  unfold lockOrder
  split
  next a b heq => split <;> [skip; split] <;> simp_all

theorem lockOrder_ne_nil (hasher : K → BitVec 64) (mask : HashResult) (key : K) :
    lockOrder hasher mask key ≠ [] := by
  unfold lockOrder
  split
  next a b heq => split <;> [skip; split] <;> simp_all

theorem lockOrder_lt {l : ℕ} (hl : l ∈ lockOrder hasher mask key) : l < 2^32 := by
  have ha := (hashPrimary hasher key &&& mask).isLt
  have hb := (hashSecondary (hashPrimary hasher key) &&& mask).isLt
  unfold lockOrder lockIndices at hl
  simp only at hl
  split at hl
  · simp only [List.mem_cons, List.not_mem_nil, or_false] at hl
    omega
  · split at hl <;> simp only [List.mem_cons, List.not_mem_nil, or_false] at hl <;> omega

theorem strictInv_init (hlock : ∀ l, s.lock l = 0) (hpc : ∀ p, s.pc p = .idle) :
    StrictInv hasher mask s := by
  refine ⟨fun l => .inl (hlock l), ?_, ?_, ?_⟩
  · intro l
    simp [hlock l, hpc, held]
  · intro l p q hp
    rw [hpc p] at hp
    exact absurd hp List.not_mem_nil
  · intro p
    rw [hpc p]
    trivial

section Strict
variable [DecidableEq P]

/-- A step of one process: the words say what it holds, and what the others do. -/
theorem StrictInv.move (h : StrictInv hasher mask s) {lock : ℕ → ℕ} {pc : LockPc K}
    (hword : ∀ l, lock l = 0 ∨ lock l = 1)
    (hset : ∀ l, lock l = 1 ↔ l ∈ held hasher mask pc ∨ ∃ q, q ≠ p ∧ l ∈ held hasher mask (s.pc q))
    (hown : ∀ l q, l ∈ held hasher mask pc → q ≠ p → l ∉ held hasher mask (s.pc q))
    (hshape : Shape hasher mask pc) : StrictInv hasher mask ⟨lock, Function.update s.pc p pc⟩ := by
  refine ⟨hword, ?_, ?_, ?_⟩
  · intro l
    change lock l = 1 ↔ ∃ q, l ∈ held hasher mask (Function.update s.pc p pc q)
    rw [hset l]
    constructor
    · rintro (hl | ⟨q, hq, hl⟩)
      · exact ⟨p, by rwa [Function.update_self]⟩
      · exact ⟨q, by rwa [Function.update_of_ne hq]⟩
    · rintro ⟨q, hl⟩
      by_cases hq : q = p
      · rw [hq, Function.update_self] at hl
        exact .inl hl
      · rw [Function.update_of_ne hq] at hl
        exact .inr ⟨q, hq, hl⟩
  · intro l q r hq hr
    change l ∈ held hasher mask (Function.update s.pc p pc q) at hq
    change l ∈ held hasher mask (Function.update s.pc p pc r) at hr
    by_cases hqp : q = p <;> by_cases hrp : r = p
    · rw [hqp, hrp]
    · rw [hqp, Function.update_self] at hq
      rw [Function.update_of_ne hrp] at hr
      exact absurd hr (hown l r hq hrp)
    · rw [hrp, Function.update_self] at hr
      rw [Function.update_of_ne hqp] at hq
      exact absurd hq (hown l q hr hqp)
    · rw [Function.update_of_ne hqp] at hq
      rw [Function.update_of_ne hrp] at hr
      exact h.unique hq hr
  · intro q
    change Shape hasher mask (Function.update s.pc p pc q)
    by_cases hq : q = p
    · rw [hq, Function.update_self]
      exact hshape
    · rw [Function.update_of_ne hq]
      exact h.shape q

theorem StrictInv.set_iff (h : StrictInv hasher mask s) (p : P) (l : ℕ) :
    s.lock l = 1 ↔ l ∈ held hasher mask (s.pc p) ∨ ∃ q, q ≠ p ∧ l ∈ held hasher mask (s.pc q) := by
  rw [h.set l]
  constructor
  · rintro ⟨q, hl⟩
    by_cases hq : q = p
    · exact .inl (hq ▸ hl)
    · exact .inr ⟨q, hq, hl⟩
  · rintro (hl | ⟨q, -, hl⟩)
    · exact ⟨p, hl⟩
    · exact ⟨q, hl⟩

/-- A step that takes and releases nothing. -/
theorem StrictInv.stay (h : StrictInv hasher mask s) {lock : ℕ → ℕ} {pc : LockPc K}
    (hlock : ∀ l, lock l = s.lock l)
    (hheld : ∀ l, l ∈ held hasher mask pc ↔ l ∈ held hasher mask (s.pc p))
    (hshape : Shape hasher mask pc) : StrictInv hasher mask ⟨lock, Function.update s.pc p pc⟩ := by
  apply h.move
  · intro l
    rw [hlock l]
    exact h.word l
  · intro l
    rw [hlock l, hheld l]
    exact h.set_iff p l
  · intro l q hl hq hl'
    exact hq (h.unique hl' ((hheld l).mp hl))
  · exact hshape

/-- The instruction that takes a free lock. -/
theorem StrictInv.take (h : StrictInv hasher mask s) {l₀ : ℕ} {pc : LockPc K} (hfree : s.lock l₀ = 0)
    (hheld : ∀ l, l ∈ held hasher mask pc ↔ l = l₀ ∨ l ∈ held hasher mask (s.pc p))
    (hshape : Shape hasher mask pc) :
    StrictInv hasher mask ⟨Function.update s.lock l₀ 1, Function.update s.pc p pc⟩ := by
  have hnone : ∀ q, l₀ ∉ held hasher mask (s.pc q) := by
    intro q hq
    have := (h.set l₀).mpr ⟨q, hq⟩
    omega
  apply h.move
  · intro l
    by_cases hl : l = l₀
    · exact .inr (by rw [hl, Function.update_self])
    · rw [Function.update_of_ne hl]
      exact h.word l
  · intro l
    rw [hheld l]
    by_cases hl : l = l₀
    · simp [hl]
    · rw [Function.update_of_ne hl, h.set_iff p l]
      simp [hl]
  · intro l q hl hq hl'
    rcases (hheld l).mp hl with rfl | hl
    · exact hnone q hl'
    · exact hq (h.unique hl' hl)
  · exact hshape

/-- The instruction that releases a lock. -/
theorem StrictInv.release (h : StrictInv hasher mask s) {l₀ : ℕ} {pc : LockPc K}
    (hmine : l₀ ∈ held hasher mask (s.pc p))
    (hheld : ∀ l, l ∈ held hasher mask pc ↔ l ≠ l₀ ∧ l ∈ held hasher mask (s.pc p))
    (hshape : Shape hasher mask pc) :
    StrictInv hasher mask ⟨Function.update s.lock l₀ 0, Function.update s.pc p pc⟩ := by
  apply h.move
  · intro l
    by_cases hl : l = l₀
    · exact .inl (by rw [hl, Function.update_self])
    · rw [Function.update_of_ne hl]
      exact h.word l
  · intro l
    rw [hheld l]
    by_cases hl : l = l₀
    · have hnone : ¬∃ q, q ≠ p ∧ l₀ ∈ held hasher mask (s.pc q) := by
        rintro ⟨q, hq, hq'⟩
        exact hq (h.unique hq' hmine)
      simp [hl, hnone]
    · rw [Function.update_of_ne hl, h.set_iff p l]
      simp [hl]
  · intro l q hl hq hl'
    exact hq (h.unique hl' ((hheld l).mp hl).2)
  · exact hshape

/-- One instruction of a process that uses `SpinLock`. -/
theorem StrictInv.instr (h : StrictInv hasher mask s) (p : P) :
    StrictInv hasher mask ⟨(instr hasher mask s.lock (s.pc p)).1,
      Function.update s.pc p (instr hasher mask s.lock (s.pc p)).2⟩ := by
  have hshape := h.shape p
  cases hpc : s.pc p with
  | idle => exact h.stay (fun _ => rfl) (fun _ => by rw [hpc]; rfl) trivial
  | inside key => exact h.stay (fun _ => rfl) (fun _ => by rw [hpc]; rfl) trivial
  | tryFirst key => rw [hpc] at hshape; exact hshape.elim
  | trySecond key => rw [hpc] at hshape; exact hshape.elim
  | undo key => rw [hpc] at hshape; exact hshape.elim
  | acquiring key h' todo =>
    rw [hpc] at hshape
    obtain ⟨horder, hne⟩ := hshape
    obtain ⟨l, todo, rfl⟩ := List.exists_cons_of_ne_nil hne
    by_cases hfree : s.lock l = 0
    · -- the lock is taken, and it may be the last
      simp only [SpinLocks.instr, if_pos hfree]
      apply h.take hfree
      · intro l'
        rw [hpc]
        split
        next hnil =>
          subst hnil
          change l' ∈ lockOrder hasher mask key ↔ l' = l ∨ l' ∈ h'
          rw [← horder]
          simp [or_comm]
        next => simp [held, or_comm]
      · split
        next => trivial
        next hnil => exact ⟨by rw [← horder, List.append_assoc]; rfl, hnil⟩
    · have hone : s.lock l = 1 := (h.word l).resolve_left hfree
      simp only [SpinLocks.instr, if_neg hfree]
      apply h.stay
      · intro l'
        by_cases hl : l' = l
        · rw [hl, Function.update_self, hone]
        · rw [Function.update_of_ne hl]
      · intro l'
        rw [hpc]
        rfl
      · exact ⟨horder, hne⟩
  | spinning key h' todo =>
    rw [hpc] at hshape
    obtain ⟨l, todo, rfl⟩ := List.exists_cons_of_ne_nil hshape.2
    simp only [SpinLocks.instr]
    apply h.stay (fun _ => rfl)
    · intro l'
      rw [hpc]
      split <;> rfl
    · split <;> exact hshape
  | releasing todo =>
    rw [hpc] at hshape
    obtain ⟨hnodup, hne⟩ := hshape
    obtain ⟨l, todo, rfl⟩ := List.exists_cons_of_ne_nil hne
    rw [List.nodup_cons] at hnodup
    simp only [SpinLocks.instr]
    apply h.release
    · rw [hpc]
      exact List.mem_cons_self
    · intro l'
      rw [hpc]
      have hrest : l' ∈ todo ↔ l' ≠ l ∧ l' ∈ l :: todo := by
        rw [List.mem_cons]
        constructor
        · intro hl
          exact ⟨by rintro rfl; exact hnodup.1 hl, .inr hl⟩
        · rintro ⟨hl, hl'⟩
          exact hl'.resolve_left hl
      split
      next hnil =>
        subst hnil
        exact hrest
      next => exact hrest
    · split
      next => trivial
      next hnil => exact ⟨hnodup.2, hnil⟩

theorem strictInv_reachable (h : (strictSystem hasher mask).Reachable s) : StrictInv hasher mask s := by
  apply h.invariant
  · rintro s ⟨hlock, hpc⟩
    exact strictInv_init hlock hpc
  · rintro s a h ⟨hpre, hstrict⟩
    cases a with
    | spinLock p key =>
      have hpc : s.pc p = .idle := hpre
      apply h.stay (fun _ => rfl)
      · intro l
        rw [hpc]
        rfl
      · exact ⟨rfl, lockOrder_ne_nil hasher mask key⟩
    | spinLockLazy p key => exact absurd rfl (hstrict p key)
    | step p => exact h.instr p
    | spinUnlock p =>
      obtain ⟨key, hpc⟩ : ∃ key, s.pc p = .inside key := hpre
      change StrictInv hasher mask (lockNext hasher mask s (.spinUnlock p))
      simp only [lockNext, hpc]
      apply h.stay (fun _ => rfl)
      · intro l
        rw [hpc]
        simp [held]
      · refine ⟨List.nodup_reverse.mpr ((lockOrder_pairwise hasher mask key).imp fun hlt => hlt.ne), ?_⟩
        simpa using lockOrder_ne_nil hasher mask key

theorem spinLock_word (h : (strictSystem hasher mask).Reachable s) (hp : s.pc p = .inside key) {l : ℕ}
    (hl : l ∈ lockOrder hasher mask key) : s.lock l = 1 := by
  refine ((strictInv_reachable h).set l).mpr ⟨p, ?_⟩
  rw [hp]
  exact hl

/-- Processes that use `SpinLock` only: two that are inside have no bucket in common, and nobody
else holds the locks of one that is. -/
theorem spinLock_exclusive (h : (strictSystem hasher mask).Reachable s) {key' : K} (hpq : p ≠ q)
    (hp : s.pc p = .inside key) (hq : s.pc q = .inside key') {l : ℕ}
    (hl : l ∈ lockOrder hasher mask key) : s.lock l = 1 ∧ l ∉ lockOrder hasher mask key' := by
  have hinv := strictInv_reachable h
  have hheld : l ∈ held hasher mask (s.pc p) := by
    rw [hp]
    exact hl
  refine ⟨spinLock_word h hp hl, ?_⟩
  intro hl'
  refine hpq (hinv.unique hheld ?_)
  rw [hq]
  exact hl'

/-- Three processes, eight buckets. -/
def idleLocks : LockState (Fin 3) ℕ := ⟨fun _ => 0, fun _ => .idle⟩

def smallHasher (key : ℕ) : BitVec 64 := BitVec.ofNat 64 key

def bothActs : List (LockAct (Fin 3) ℕ) :=
  [.spinLock 0 0, .spinLock 1 1, .step 0, .step 1, .step 1, .step 0]

/-- Two of them are inside, with keys of different buckets. -/
def bothInside : LockState (Fin 3) ℕ := (strictSystem smallHasher 7#32).run idleLocks bothActs

theorem bothInside_reachable : (strictSystem smallHasher 7#32).Reachable bothInside := by
  have hinit : (strictSystem smallHasher 7#32).init idleLocks := ⟨fun _ => rfl, fun _ => rfl⟩
  refine (System.Reachable.init hinit).run bothActs ?_
  refine ⟨⟨rfl, ?_⟩, ⟨rfl, ?_⟩, ⟨trivial, ?_⟩, ⟨trivial, ?_⟩, ⟨trivial, ?_⟩, ⟨trivial, ?_⟩, trivial⟩ <;>
    exact fun _ _ => nofun

theorem spinLock_exclusive_small :
    bothInside.lock 0 = 1 ∧ 0 ∉ lockOrder smallHasher 7#32 1 := by
  have h0 : bothInside.pc 0 = .inside 0 := rfl
  have h1 : bothInside.pc 1 = .inside 1 := rfl
  exact spinLock_exclusive bothInside_reachable (by decide) h0 h1 (by decide)

/-- The process waits for lock `l`, which is taken. -/
def Waits (s : LockState P K) (p : P) (l : ℕ) : Prop :=
  s.lock l = 1 ∧ ∃ key h todo, s.pc p = .acquiring key h (l :: todo) ∨ s.pc p = .spinning key h (l :: todo)

/-- They are never deadlocked: where somebody is not idle, somebody is not idle and does not
wait. -/
theorem spinLock_progress (h : (strictSystem hasher mask).Reachable s) (hp : s.pc p ≠ .idle) :
    ∃ q, s.pc q ≠ .idle ∧ ∀ l, ¬Waits s q l := by
  have hinv := strictInv_reachable h
  have hwaits {p : P} {l : ℕ} (hw : Waits s p l) :
      ∃ key todo, held hasher mask (s.pc p) ++ l :: todo = lockOrder hasher mask key := by
    obtain ⟨-, key, h', todo, hpc | hpc⟩ := hw
    · have hs := hinv.shape p
      rw [hpc] at hs ⊢
      exact ⟨key, todo, hs.1⟩
    · have hs := hinv.shape p
      rw [hpc] at hs ⊢
      exact ⟨key, todo, hs.1⟩
  by_cases hw : ∃ l, Waits s p l
  · obtain ⟨l, hw⟩ := hw
    obtain ⟨q, hq⟩ := (hinv.set l).mp hw.1
    have hbound {p : P} {l : ℕ} (hw : Waits s p l) : l < 2^32 := by
      obtain ⟨key, todo, horder⟩ := hwaits hw
      have hl : l ∈ lockOrder hasher mask key := by simp [← horder]
      exact lockOrder_lt hl
    have habove {p : P} {l l' : ℕ} (hw : Waits s p l) (hl' : l' ∈ held hasher mask (s.pc p)) :
        l' < l := by
      obtain ⟨key, todo, horder⟩ := hwaits hw
      have := lockOrder_pairwise hasher mask key
      rw [← horder, List.pairwise_append] at this
      exact this.2.2 l' hl' l List.mem_cons_self
    obtain ⟨r, l', hr, hnot⟩ := exists_not_waiting (fun q l => l ∈ held hasher mask (s.pc q))
      (Waits s) (2^32) hbound habove (fun hw => (hinv.set _).mp hw.1) hq
    refine ⟨r, ?_, hnot⟩
    intro hidle
    simp only [hidle, held] at hr
    exact List.not_mem_nil hr
  · exact ⟨p, hp, not_exists.mp hw⟩

theorem spinLock_progress_small : ∃ q, bothInside.pc q ≠ .idle ∧ ∀ l, ¬Waits bothInside q l :=
  spinLock_progress (p := 1) bothInside_reachable nofun

theorem lockOrder_eq (hasher : K → BitVec 64) (mask : HashResult) (key : K) :
    lockOrder hasher mask key =
      if (lockIndices hasher mask key).1 < (lockIndices hasher mask key).2 then
        [(lockIndices hasher mask key).1, (lockIndices hasher mask key).2]
      else if (lockIndices hasher mask key).1 > (lockIndices hasher mask key).2 then
        [(lockIndices hasher mask key).2, (lockIndices hasher mask key).1]
      else [(lockIndices hasher mask key).1] := rfl

/-- The locks of a key with two buckets. -/
theorem lockOrder_two (h2 : (lockOrder hasher mask key).length ≠ 1) :
    ∃ lo hi, lo < hi ∧ lockOrder hasher mask key = [lo, hi] := by
  rw [lockOrder_eq] at h2 ⊢
  split at h2
  next hlt => exact ⟨_, _, hlt, by rw [if_pos hlt]⟩
  next hlt =>
    split at h2
    next hgt => exact ⟨_, _, hgt, by rw [if_neg hlt, if_pos hgt]⟩
    next => exact absurd rfl h2

section Two
variable {lo hi : ℕ}

/-- `SpinLock` with both locks free. -/
theorem run_spinLock (horder : lockOrder hasher mask key = [lo, hi]) (hlt : lo < hi)
    (hlo : s.lock lo = 0) (hhi : s.lock hi = 0) :
    (lockSystem hasher mask).run s [.spinLock p key, .step p, .step p] =
      ⟨Function.update (Function.update s.lock lo 1) hi 1, Function.update s.pc p (.inside key)⟩ := by
  simp [System.run, lockSystem, lockNext, goto, instr, horder, hlo, hhi, hlt.ne']

/-- `SpinLockLazy` with both locks taken: both `shm_spin_trylock` fail, and that ends it. -/
theorem run_spinLockLazy (horder : lockOrder hasher mask key = [lo, hi])
    (hlo : s.lock lo = 1) (hhi : s.lock hi = 1) :
    (lockSystem hasher mask).run s [.spinLockLazy p key, .step p, .step p] =
      ⟨s.lock, Function.update s.pc p (.inside key)⟩ := by
  have hlo' : Function.update s.lock lo 1 = s.lock := Function.update_eq_self_iff.mpr hlo.symm
  have hhi' : Function.update s.lock hi 1 = s.lock := Function.update_eq_self_iff.mpr hhi.symm
  simp [System.run, lockSystem, lockNext, goto, instr, horder, shmSpinTrylock, hlo, hhi, hlo', hhi']

/-- `SpinUnlock`, whoever holds the locks. -/
theorem run_spinUnlock (horder : lockOrder hasher mask key = [lo, hi]) (hp : s.pc p = .inside key) :
    (lockSystem hasher mask).run s [.spinUnlock p, .step p, .step p] =
      ⟨Function.update (Function.update s.lock hi 0) lo 0, Function.update s.pc p .idle⟩ := by
  simp [System.run, lockSystem, lockNext, goto, instr, horder, hp]

/-- `SpinLockLazy` with nobody else about: the seventh instruction ends it, with both locks taken. -/
theorem run_spinLockLazy_alone (horder : lockOrder hasher mask key = [lo, hi]) (hlt : lo < hi)
    (hlo : s.lock lo = 0) (hhi : s.lock hi = 0) :
    (lockSystem hasher mask).run s (.spinLockLazy p key :: List.replicate 7 (.step p)) =
      ⟨Function.update (Function.update s.lock lo 1) hi 1, Function.update s.pc p (.inside key)⟩ := by
  have hcomm := Function.update_comm hlt.ne (1 : ℕ) 1 s.lock
  simp [System.run, lockSystem, lockNext, goto, instr, horder, shmSpinTrylock, hlo, hhi, hlt.ne',
    List.replicate, hcomm]

end Two

/-- `SpinLockLazy` takes the failure of `shm_spin_trylock` for its success. With somebody inside,
two instructions of it are enough to be inside as well, and its `SpinUnlock` lets the next
`SpinLock` in, the first process still being there. -/
theorem spinLockLazy_enters (h : (strictSystem hasher mask).Reachable s) {r : P} (hqp : q ≠ p)
    (hrp : r ≠ p) (hp : s.pc p = .inside key) (hq : s.pc q = .idle) (hr : s.pc r = .idle)
    (h2 : (lockOrder hasher mask key).length ≠ 1) :
    let lazy : List (LockAct P K) := [.spinLockLazy q key, .step q, .step q]
    let unlock : List (LockAct P K) := [.spinUnlock q, .step q, .step q]
    let next : List (LockAct P K) := [.spinLock r key, .step r, .step r]
    let t := (lockSystem hasher mask).run s lazy
    let u := (lockSystem hasher mask).run s (lazy ++ unlock ++ next)
    (lockSystem hasher mask).Enabled s (lazy ++ unlock ++ next) ∧
      (t.pc p = .inside key ∧ t.pc q = .inside key) ∧ u.pc p = .inside key ∧ u.pc r = .inside key := by
  intro lazy unlock next t u
  obtain ⟨lo, hi, hlt, horder⟩ := lockOrder_two h2
  have hlo : s.lock lo = 1 := spinLock_word h hp (by simp [horder])
  have hhi : s.lock hi = 1 := spinLock_word h hp (by simp [horder])
  -- `q` is inside with the locks as they were
  have ht : t = ⟨s.lock, Function.update s.pc q (.inside key)⟩ := run_spinLockLazy horder hlo hhi
  have htpc : t.pc = Function.update s.pc q (.inside key) := congrArg LockState.pc ht
  have htq : t.pc q = .inside key := by rw [htpc, Function.update_self]
  have htp : t.pc p = .inside key := by rwa [htpc, Function.update_of_ne hqp.symm]
  -- it leaves, and both locks are free
  let v := (lockSystem hasher mask).run t unlock
  have hv : v = ⟨Function.update (Function.update t.lock hi 0) lo 0, Function.update t.pc q .idle⟩ :=
    run_spinUnlock horder htq
  have hvlock : v.lock = Function.update (Function.update t.lock hi 0) lo 0 := congrArg LockState.lock hv
  have hvpc : v.pc = Function.update t.pc q .idle := congrArg LockState.pc hv
  have hvr : v.pc r = .idle := by
    rw [hvpc]
    by_cases hrq : r = q
    · rw [hrq, Function.update_self]
    · rw [Function.update_of_ne hrq, htpc, Function.update_of_ne hrq, hr]
  have hvp : v.pc p = .inside key := by rwa [hvpc, Function.update_of_ne hqp.symm]
  -- so `r` takes them
  have huv : u = (lockSystem hasher mask).run v next := by
    simp only [u, v, t, System.run, List.foldl_append]
  have hupc : u.pc = Function.update v.pc r (.inside key) := by
    rw [huv]
    refine congrArg LockState.pc (run_spinLock horder hlt ?_ ?_)
    · rw [hvlock, Function.update_self]
    · rw [hvlock, Function.update_of_ne hlt.ne', Function.update_self]
  refine ⟨?_, ⟨htp, htq⟩, ?_, ?_⟩
  · -- only the three calls have a precondition
    have hlazy : (lockSystem hasher mask).Enabled s lazy := ⟨hq, trivial, trivial, trivial⟩
    have hunlock : (lockSystem hasher mask).Enabled t unlock := ⟨⟨key, htq⟩, trivial, trivial, trivial⟩
    have hnext : (lockSystem hasher mask).Enabled v next := ⟨hvr, trivial, trivial, trivial⟩
    rw [List.append_assoc]
    exact System.enabled_append hlazy (System.enabled_append hunlock hnext)
  · rwa [hupc, Function.update_of_ne hrp.symm]
  · rw [hupc, Function.update_self]

theorem spinLockLazy_enters_small :
    ((lockSystem smallHasher 7#32).run bothInside
      [.spinLockLazy 2 0, .step 2, .step 2]).pc 2 = .inside 0 := by
  have h0 : bothInside.pc 0 = .inside 0 := rfl
  have h2 : bothInside.pc 2 = .idle := rfl
  exact (spinLockLazy_enters bothInside_reachable (by decide) (by decide) h0 h2 h2 (by decide)).2.1.2

end Strict
end SpinLocks
end Tasvir
